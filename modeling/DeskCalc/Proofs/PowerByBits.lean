import DeskCalc.Decimal96.Power
import Mathlib.Algebra.Order.Field.Basic
import Mathlib.Algebra.Order.Field.Power
import Mathlib.Data.Rat.Cast.Order
import Mathlib.Tactic.Linarith
import Mathlib.Tactic.Ring

/-!
# Powers by the bits of the exponent

Squaring goes no further than the exponent. So all that is multiplied on the way to a power
are powers whose exponents do not pass it, and what one product keeps, the whole power keeps.
-/

namespace DeskCalc

@[simp] theorem bitsOf_one : bitsOf 1 = [true] := rfl

/-- The lowest bit is in front of the bits of the half. -/
theorem bitsOf_of_two_le {n : Nat} (h : 2 ≤ n) : bitsOf n = n.testBit 0 :: bitsOf (n / 2) := by
  have hlog : n.log2 = (n / 2).log2 + 1 := by
    rw [Nat.log2_def, if_pos h]
  rw [bitsOf, bitsOf, hlog, List.range_succ_eq_map, List.map_cons, List.map_map]
  congr 1
  apply List.map_congr_left
  intro i _
  exact Nat.testBit_succ n i

theorem bitsOf_ne_nil (n : Nat) : bitsOf n ≠ [] := by
  simp [bitsOf]

section

variable {α : Type} (mul? : α → α → Option α) (product power : α)

theorem powerByBits_one : powerByBits mul? product power (bitsOf 1) = mul? product power := by
  cases h : mul? product power <;> simp [powerByBits, h]

theorem powerByBits_of_even {n : Nat} (h : 2 ≤ n) (heven : n % 2 = 0) :
    powerByBits mul? product power (bitsOf n) =
      (mul? power power).bind fun square => powerByBits mul? product square (bitsOf (n / 2)) := by
  have hbit : n.testBit 0 = false := by simp [heven]
  rw [bitsOf_of_two_le h, hbit]
  simp [powerByBits, bitsOf_ne_nil]

theorem powerByBits_of_odd {n : Nat} (h : 2 ≤ n) (hodd : n % 2 = 1) :
    powerByBits mul? product power (bitsOf n) =
      (mul? product power).bind fun product =>
        (mul? power power).bind fun square =>
          powerByBits mul? product square (bitsOf (n / 2)) := by
  have hbit : n.testBit 0 = true := by simp [hodd]
  rw [bitsOf_of_two_le h, hbit]
  simp [powerByBits, bitsOf_ne_nil]

end

/-- A result of which `P` holds, or none, for which there is the reason `F`. -/
inductive Outcome {α : Type} (P : α → Prop) (F : Prop) : Option α → Prop
  | some {a : α} (h : P a) : Outcome P F (some a)
  | none (h : F) : Outcome P F none

theorem Outcome.bind {α β : Type} {P : α → Prop} {Q : β → Prop} {F : Prop} {r : Option α}
    {f : α → Option β} (h : Outcome P F r) (hf : ∀ a, P a → Outcome Q F (f a)) :
    Outcome Q F (r.bind f) := by
  cases h with
  | some ha => exact hf _ ha
  | none hF => exact .none hF

theorem Outcome.map {α β : Type} {P : α → Prop} {Q : β → Prop} {F : Prop} {r : Option α}
    {f : α → β} (h : Outcome P F r) (hf : ∀ a, P a → Q (f a)) : Outcome Q F (r.map f) := by
  cases h with
  | some ha => exact .some (hf _ ha)
  | none hF => exact .none hF

theorem Outcome.mono {α : Type} {P Q : α → Prop} {F G : Prop} {r : Option α}
    (h : Outcome P F r) (hP : ∀ a, P a → Q a) (hF : F → G) : Outcome Q G r := by
  cases h with
  | some ha => exact .some (hP _ ha)
  | none hf => exact .none (hF hf)

theorem Outcome.and {α : Type} {P Q : α → Prop} {F G : Prop} {r : Option α}
    (h : Outcome P F r) (h' : Outcome Q G r) : Outcome (fun a => P a ∧ Q a) F r := by
  cases h with
  | some ha =>
      cases h' with
      | some ha' => exact .some ⟨ha, ha'⟩
  | none hF => exact .none hF

/-- What products keep on the way to a power. `Product k` is kept by the products so far and
`Power k` by the squares, where `k` counts the factors; a product of `k` factors that is not
given `Fails k`. -/
structure PowerSteps {α : Type} (mul? : α → α → Option α) (Product Power : Nat → α → Prop)
    (Fails : Nat → Prop) : Prop where
  multiply : ∀ {i j a b}, Product i a → Power j b →
    Outcome (Product (i + j)) (Fails (i + j)) (mul? a b)
  square : ∀ {j b}, Power j b → Outcome (Power (j + j)) (Fails (j + j)) (mul? b b)

/-- If a power is not given, a product of no more factors than it has was not. -/
theorem PowerSteps.powerByBits {α : Type} {mul? : α → α → Option α}
    {Product Power : Nat → α → Prop} {Fails : Nat → Prop}
    (h : PowerSteps mul? Product Power Fails) {n i j : Nat} (hn : 0 < n) {a b : α}
    (ha : Product i a) (hb : Power j b) :
    Outcome (Product (i + j * n)) (∃ k ≤ i + j * n, Fails k)
      (powerByBits mul? a b (bitsOf n)) := by
  -- The bits that are left denote `n`, which is halved with every bit.
  induction n using Nat.strongRecOn generalizing i j a b with
  | ind n ih =>
      rcases Nat.lt_or_ge n 2 with hlt | hge
      · obtain rfl : n = 1 := by omega
        rw [powerByBits_one, Nat.mul_one]
        exact (h.multiply ha hb).mono (fun _ => id) fun hfails => ⟨_, le_refl _, hfails⟩
      · have hlt : n / 2 < n := by omega
        have hhalf : 0 < n / 2 := by omega
        have hsquare := (h.square hb).mono (fun _ => id) fun hfails =>
          (⟨j + j, by nlinarith, hfails⟩ : ∃ k ≤ i + j * n, Fails k)
        rcases Nat.mod_two_eq_zero_or_one n with heven | hodd
        · have hcount : i + (j + j) * (n / 2) = i + j * n := by
            have hn : n = 2 * (n / 2) := by omega
            conv_rhs => rw [hn]
            ring
          rw [powerByBits_of_even mul? a b hge heven]
          apply hsquare.bind
          intro square hs
          rw [← hcount]
          exact ih (n / 2) hlt hhalf ha hs
        · have hcount : i + j + (j + j) * (n / 2) = i + j * n := by
            have hn : n = 2 * (n / 2) + 1 := by omega
            conv_rhs => rw [hn]
            ring
          have hmultiply := (h.multiply ha hb).mono (fun _ => id) fun hfails =>
            (⟨i + j, by nlinarith, hfails⟩ : ∃ k ≤ i + j * n, Fails k)
          rw [powerByBits_of_odd mul? a b hge hodd]
          apply hmultiply.bind
          intro product hp
          apply hsquare.bind
          intro square hs
          rw [← hcount]
          exact ih (n / 2) hlt hhalf hp hs

section Size

variable {α : Type} {mul? : α → α → Option α} {size : α → ℚ} {M δ limit : ℚ}

/-- Products that are enlarged by `δ` at most when they are rounded, and that are given below a
limit, give powers of numbers up to `M` in as many steps, each enlarged as often as it has
factors. A square has one rounding less behind it than it has factors. -/
theorem powerSteps_size (hsize : ∀ a, 0 ≤ size a) (hM : 1 ≤ M) (hδ : 0 ≤ δ)
    (hmul : ∀ a b B, 1 ≤ B → size a * size b ≤ B →
      Outcome (fun c => size c ≤ B * (1 + δ)) (limit ≤ B) (mul? a b)) :
    PowerSteps mul? (fun i a => size a ≤ (M * (1 + δ)) ^ i)
      (fun j b => 0 < j ∧ size b * (1 + δ) ≤ (M * (1 + δ)) ^ j)
      (fun k => limit ≤ (M * (1 + δ)) ^ k) := by
  have hunit : 1 ≤ 1 + δ := by linarith
  have hpos : 0 < 1 + δ := by linarith
  have hle : 1 + δ ≤ M * (1 + δ) := le_mul_of_one_le_left hpos.le hM
  have hone : 1 ≤ M * (1 + δ) := le_trans hunit hle
  constructor
  · rintro i j a b ha ⟨hj, hb⟩
    have hroom : 1 + δ ≤ (M * (1 + δ)) ^ (i + j) :=
      le_trans hle (le_self_pow₀ hone (by omega))
    have hproduct : size a * size b ≤ (M * (1 + δ)) ^ (i + j) / (1 + δ) := by
      rw [le_div_iff₀ hpos, mul_assoc, pow_add]
      exact mul_le_mul ha hb (mul_nonneg (hsize b) hpos.le) (by positivity)
    apply (hmul a b _ ((one_le_div hpos).mpr hroom) hproduct).mono
    · intro c hc
      rwa [div_mul_cancel₀ _ hpos.ne'] at hc
    · intro hlimit
      exact le_trans hlimit (div_le_self (by positivity) hunit)
  · rintro j b ⟨hj, hb⟩
    have hroom : (1 + δ) * (1 + δ) ≤ (M * (1 + δ)) ^ (j + j) := by
      rw [pow_add]
      exact mul_le_mul (le_trans hle (le_self_pow₀ hone hj.ne'))
        (le_trans hle (le_self_pow₀ hone hj.ne')) hpos.le (by positivity)
    have hproduct : size b * size b ≤ (M * (1 + δ)) ^ (j + j) / ((1 + δ) * (1 + δ)) := by
      rw [le_div_iff₀ (mul_pos hpos hpos), mul_mul_mul_comm, pow_add]
      exact mul_le_mul hb hb (mul_nonneg (hsize b) hpos.le) (by positivity)
    have hunits : 0 < (1 + δ) * (1 + δ) := mul_pos hpos hpos
    apply (hmul b b _ ((one_le_div hunits).mpr hroom) hproduct).mono
    · intro c hc
      rw [div_mul_eq_div_div, div_mul_cancel₀ _ hpos.ne'] at hc
      exact ⟨Nat.add_pos_left hj j, (le_div_iff₀ hpos).mp hc⟩
    · intro hlimit
      have hone : 1 ≤ (1 + δ) * (1 + δ) := one_le_mul_of_one_le_of_one_le hunit hunit
      exact le_trans hlimit (div_le_self (by positivity) hone)

/-- If such a power is not given, the limit is below the power of the enlarged number. -/
theorem powerByBits_size (hsize : ∀ a, 0 ≤ size a) (hM : 1 ≤ M) (hδ : 0 ≤ δ)
    (hmul : ∀ a b B, 1 ≤ B → size a * size b ≤ B →
      Outcome (fun c => size c ≤ B * (1 + δ)) (limit ≤ B) (mul? a b))
    {one x : α} (hone : size one ≤ 1) (hx : size x ≤ M) {n : Nat} (hn : 0 < n) :
    Outcome (fun c => size c ≤ (M * (1 + δ)) ^ n) (limit ≤ (M * (1 + δ)) ^ n)
      (powerByBits mul? one x (bitsOf n)) := by
  have hpos : 0 < 1 + δ := by linarith
  have hbase : 1 ≤ M * (1 + δ) := one_le_mul_of_one_le_of_one_le hM (by linarith)
  have hpower : size x * (1 + δ) ≤ (M * (1 + δ)) ^ 1 := by
    rw [pow_one]
    exact mul_le_mul_of_nonneg_right hx hpos.le
  have hproduct : size one ≤ (M * (1 + δ)) ^ 0 := by rwa [pow_zero]
  have houtcome := (powerSteps_size hsize hM hδ hmul).powerByBits hn hproduct
    (⟨Nat.one_pos, hpower⟩ : 0 < 1 ∧ _)
  rw [Nat.one_mul, Nat.zero_add] at houtcome
  apply houtcome.mono
  · exact fun _ => id
  · rintro ⟨k, hk, hlimit⟩
    exact le_trans hlimit (pow_le_pow_right₀ hbase hk)

end Size

end DeskCalc
