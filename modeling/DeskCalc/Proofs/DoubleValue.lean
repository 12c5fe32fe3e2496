import DeskCalc.Proofs.DoubleRounding

/-!
# The numbers of doubles

A finite double denotes a rational number. Differences and products round it once, and packing
what they are rounded to loses nothing.
-/

namespace DeskCalc.Double

open Float.Model (Format UnpackedFloat totalExponent)
open Float.Model.UnpackedFloat

/-- The sign of a packed double is found again, as its exponent and mantissa are. -/
theorem unpackSign_packComponents {spec : Format} (s : Sign) (e : BitVec spec.exponentBits)
    (m : BitVec spec.mantissaBitsWithoutImplicit) :
    unpackSign (packComponents spec s e m) = s.toBitVec := by
  ext i hi
  obtain rfl : i = 0 := by omega
  simp [unpackSign, packComponents, BitVec.getLsbD_append, BitVec.getElem_append]

theorem ofBitVec_toBitVec (s : Sign) : Sign.ofBitVec s.toBitVec = s := by
  cases s <;> rfl

theorem toNat_implicit (m : BitVec 52) : (1#1 ++ m).toNat = 2 ^ 52 + m.toNat := by
  rw [BitVec.toNat_append, ← Nat.shiftLeft_add_eq_or_of_lt m.isLt]
  rfl

/-- A packed double with the largest exponent is not finite, one with the least is subnormal,
and every other has an implicit bit. -/
theorem unpack_packComponents (s : Sign) (e : BitVec 11) (m : BitVec 52) :
    UnpackedFloat.unpack Format.binary64 (packComponents Format.binary64 s e m) =
      if e = -1#11 then if m = 0#52 then .infinity s else .notANumber
      else if e = 0#11 then ofParts s m.toNat (-1074)
      else ofParts s (2 ^ 52 + m.toNat) (e.toNat - 1075) := by
  have hsign := @unpackSign_packComponents Format.binary64 s e m
  have hexponent := @unpackExponent_packComponents Format.binary64 s e m
  have hmantissa := @unpackMantissa_packComponents Format.binary64 s e m
  unfold UnpackedFloat.unpack
  simp only [hsign, hexponent, hmantissa, ofBitVec_toBitVec]
  split
  · rfl
  · split
    · next hzero =>
        by_cases hm : m = 0#52
        · simp [hm, ofParts]
        · have hne : m.toNat ≠ 0 := fun h => hm (BitVec.eq_of_toNat_eq h)
          have hexp : (e.toNat : Int) - ((Format.binary64.exponentBias : Int) + (52 : Nat)) + 1 =
              -1074 := by
            rw [hzero]
            rfl
          simp [hm, ofParts, hne]
          exact hexp
    · have hne : 2 ^ 52 + m.toNat ≠ 0 := by omega
      simp only [ofParts, hne, dite_false, toNat_implicit]
      rfl

/-- What has the form of an unpacked double is packed without loss unless it is large. -/
theorem unpack_pack {x : UnpackedFloat} (hx : IsCanonical x) (hsmall : |number x| < 2 ^ 200) :
    (Float.Model.pack x).unpack = x := by
  change UnpackedFloat.unpack Format.binary64 (UnpackedFloat.pack Format.binary64 x) = x
  cases x with
  | infinity s => exact absurd hx id
  | notANumber => exact absurd hx id
  | zero s => exact unpack_packComponents s 0 0
  | finite s m e hm =>
      obtain ⟨hlt, hle, hfull⟩ := hx
      have hlarge : e ≤ 900 := by
        by_contra hgt
        have hone : (1 : ℚ) ≤ m := by exact_mod_cast hm
        have hpow : (2 : ℚ) ^ (200 : Int) ≤ 2 ^ e := zpow_le_zpow_right₀ (by norm_num) (by omega)
        rw [number, abs_apply, Int.cast_natCast, abs_of_nonneg (by positivity)] at hsmall
        have hmul := mul_le_mul hone hpow (by positivity) (by positivity)
        rw [one_mul] at hmul
        exact absurd hsmall (not_lt.mpr hmul)
      set b := (e + 1075).toNat with hb
      have hbiased : (e + Format.binary64.exponentBias +
          Format.binary64.mantissaBitsWithoutImplicit).toNat = b := by
        rw [hb, add_assoc]
        rfl
      have hroom : ¬ 2 ^ Format.binary64.exponentBits ≤ b + 1 := by
        change ¬ 2048 ≤ b + 1
        omega
      simp only [UnpackedFloat.pack, hbiased, if_neg hroom]
      split
      · next hnormal =>
          have hbits : m.log2 + 1 = 53 := hnormal
          have hlow : 2 ^ 52 ≤ m := (Nat.le_log2 hm.ne').mp (by omega)
          have hexponent : (BitVec.ofNat 11 b).toNat = b := by
            rw [BitVec.toNat_ofNat]
            omega
          have hmantissa : 2 ^ 52 + (BitVec.ofNat 52 m).toNat = m := by
            rw [BitVec.toNat_ofNat]
            omega
          have hfinite : ¬ BitVec.ofNat 11 b = -1#11 := by
            intro h
            have hall := congrArg BitVec.toNat h
            rw [hexponent] at hall
            change b = 2047 at hall
            omega
          have hpos : ¬ BitVec.ofNat 11 b = 0#11 := by
            intro h
            have hnone := congrArg BitVec.toNat h
            rw [hexponent] at hnone
            change b = 0 at hnone
            omega
          have hback : (b : Int) - 1075 = e := by omega
          change UnpackedFloat.unpack Format.binary64 (packComponents Format.binary64 s
            (BitVec.ofNat 11 b) (BitVec.ofNat 52 m)) = _
          rw [unpack_packComponents, if_neg hfinite, if_neg hpos, hexponent, hmantissa, hback]
          exact dif_neg hm.ne'
      · next hsubnormal =>
          have hbits : ¬ m.log2 + 1 = 53 := hsubnormal
          have hlog : m.log2 < 53 := (Nat.log2_lt hm.ne').mpr hlt
          have hlow : m < 2 ^ 52 := (Nat.log2_lt hm.ne').mp (by omega)
          have hleast : e = -1074 := hfull.resolve_left (by omega)
          have hmantissa : (BitVec.ofNat 52 m).toNat = m := by
            rw [BitVec.toNat_ofNat]
            omega
          change UnpackedFloat.unpack Format.binary64 (packComponents Format.binary64 s 0#11
            (BitVec.ofNat 52 m)) = _
          rw [unpack_packComponents, if_neg (by decide), if_pos rfl, hmantissa, hleast]
          exact dif_neg hm.ne'

/-- Every finite double is unpacked in one form. -/
theorem isCanonical_unpack {x : Float} (h : x.isFinite = true) :
    IsCanonical x.toModel.unpack := by
  change (UnpackedFloat.unpack Format.binary64 x.toModel.toBits.toBitVec).isFinite = true at h
  change IsCanonical (UnpackedFloat.unpack Format.binary64 x.toModel.toBits.toBitVec)
  revert h
  unfold UnpackedFloat.unpack
  dsimp only
  split
  · split <;> exact nofun
  · next hfinite =>
      split
      · split
        · exact fun _ => trivial
        · next hzero hm =>
            intro _
            refine ⟨lt_trans (BitVec.isLt _) (by norm_num), ?_, Or.inr ?_⟩
            · rw [hzero]
              decide
            · rw [hzero]
              rfl
      · next hpos =>
          intro _
          set m := @unpackMantissa Format.binary64 x.toModel.toBits.toBitVec
          set e := @unpackExponent Format.binary64 x.toModel.toBits.toBitVec
          have himplicit := toNat_implicit m
          have hm : m.toNat < 2 ^ 52 := m.isLt
          have he : e.toNat ≠ 0 := fun h => hpos (BitVec.eq_of_toNat_eq h)
          have hbias : (Format.binary64.exponentBias : Int) + (52 : Nat) = 1075 := rfl
          refine ⟨?_, ?_, Or.inl ?_⟩
          · exact himplicit.trans_lt (by omega)
          · rw [hbias]
            omega
          · exact le_of_le_of_eq (Nat.le_add_right _ _) himplicit.symm

/-- The number that a finite double denotes; any other double counts as zero. -/
def value (x : Float) : ℚ := number x.toModel.unpack

/-- A finite double that the number `q` is rounded to. -/
structure Approximates (x : Float) (q : ℚ) : Prop where
  finite : x.isFinite = true
  near : |value x - q| ≤ 2 ^ (-52 : Int) * |q| + 2 ^ (-1074 : Int)

theorem isFinite_of_isCanonical {u : UnpackedFloat} (h : IsCanonical u) : u.isFinite = true := by
  cases u with
  | infinity s => exact absurd h id
  | notANumber => exact absurd h id
  | zero s => rfl
  | finite s m e hm => rfl

/-- What an operation rounds to is what its packed result denotes. -/
theorem unpack_of_rounds {u : UnpackedFloat} {q : ℚ} (h : Rounds q u) (hq : |q| < 2 ^ 150) :
    (Float.Model.pack u).unpack = u := by
  have hleast : (2 : ℚ) ^ (-1074 : Int) ≤ 1 := zpow_le_one_of_nonpos₀ (by norm_num) (by norm_num)
  have hpart : 2 ^ (-52 : Int) * |q| ≤ |q| :=
    mul_le_of_le_one_left (abs_nonneg q) (zpow_le_one_of_nonpos₀ (by norm_num) (by norm_num))
  have hsum := (abs_le.mp (abs_abs_sub_abs_le_abs_sub (number u) q)).2
  apply unpack_pack h.canonical
  calc
    |number u| ≤ |q| + |number u - q| := by linarith only [hsum]
    _ ≤ |q| + (|q| + 1) := by
      have hnear := le_trans h.near (add_le_add hpart hleast)
      linarith only [hnear]
    _ < 2 ^ 200 := by
      norm_num at hq ⊢
      linarith only [hq]

theorem approximates_of_rounds {u : UnpackedFloat} {q : ℚ} (h : Rounds q u) (hq : |q| < 2 ^ 150) :
    Approximates (.ofModel (Float.Model.pack u)) q := by
  have hunpack := unpack_of_rounds h hq
  constructor
  · change (Float.Model.pack u).unpack.isFinite = true
    rw [hunpack]
    exact isFinite_of_isCanonical h.canonical
  · change |number (Float.Model.pack u).unpack - q| ≤ _
    rw [hunpack]
    exact h.near

theorem finite_cases {x : Float} (h : x.isFinite = true) :
    (∃ s, x.toModel.unpack = .zero s) ∨
      ∃ s m e, ∃ hm : 0 < m, x.toModel.unpack = .finite s m e hm := by
  change x.toModel.unpack.isFinite = true at h
  cases hu : x.toModel.unpack with
  | infinity s =>
      rw [hu] at h
      cases h
  | notANumber =>
      rw [hu] at h
      cases h
  | zero s => exact Or.inl ⟨s, rfl⟩
  | finite s m e hm => exact Or.inr ⟨s, m, e, hm, rfl⟩

theorem rounds_self {u : UnpackedFloat} (h : IsCanonical u) : Rounds (number u) u := by
  refine ⟨h, ?_⟩
  rw [sub_self, abs_zero]
  positivity

theorem number_neg (s : Sign) {m : Nat} (e : Int) (hm : 0 < m) :
    number (.finite (-s) m e hm) = -number (.finite s m e hm) := by
  cases s with
  | negative =>
      change number (.finite .positive m e hm) = _
      simp [number, Sign.apply]
  | positive =>
      change number (.finite .negative m e hm) = _
      simp [number, Sign.apply]

theorem apply_decreaseExponent (s : Sign) (m : Nat) {e t : Int} (h : t ≤ e) :
    (s.apply ((decreaseExponent m e t).1 : Int) : ℚ) * 2 ^ t = s.apply m * 2 ^ e := by
  have hshift := apply_shiftLeft s m e (e - t).toNat
  have ht : e - ((e - t).toNat : Int) = t := by omega
  rwa [ht] at hshift

/-- A difference is rounded once. -/
theorem rounds_sub {u v : UnpackedFloat} (hu : IsCanonical u) (hv : IsCanonical v) :
    Rounds (number u - number v) (UnpackedFloat.sub Format.binary64 u v) := by
  match u, v, hu, hv with
  | .zero s, .zero s', _, _ =>
      simp only [UnpackedFloat.sub, number, sub_zero]
      split
      · exact rounds_zero s
      · exact rounds_zero .positive
  | .zero s, .finite s' m e hm, _, hv =>
      have hneg := number_neg s' e hm
      have hself : Rounds (number (.finite (-s') m e hm)) (.finite (-s') m e hm) := rounds_self hv
      rw [hneg] at hself
      change Rounds (0 - number (.finite s' m e hm)) (.finite (-s') m e hm)
      rwa [zero_sub]
  | .finite s m e hm, .zero s', hu, _ =>
      change Rounds (number (.finite s m e hm) - 0) (.finite s m e hm)
      rw [sub_zero]
      exact rounds_self hu
  | .finite s m e hm, .finite s' m' e' hm', _, _ =>
      have hleft := apply_decreaseExponent s m (min_le_left e e')
      have hright := apply_decreaseExponent s' m' (min_le_right e e')
      have hrounds := rounds_normalize (s.apply (decreaseExponent m e (min e e')).1 -
        s'.apply (decreaseExponent m' e' (min e e')).1) (min e e') .positive
      rw [Int.cast_sub, sub_mul, hleft, hright] at hrounds
      exact hrounds

theorem approximates_sub {x y : Float} (hx : x.isFinite = true) (hy : y.isFinite = true)
    (h : |value x - value y| < 2 ^ 150) : Approximates (x - y) (value x - value y) :=
  approximates_of_rounds (rounds_sub (isCanonical_unpack hx) (isCanonical_unpack hy)) h

/-- A product of mantissas is long enough for its target, or the target is the least one. -/
theorem le_target_mul {s s' : Sign} {m m' : Nat} {e e' : Int} {hm : 0 < m} {hm' : 0 < m'}
    (hu : IsCanonical (.finite s m e hm)) (hv : IsCanonical (.finite s' m' e' hm')) :
    e + e' ≤ target (m * m') (e + e') := by
  obtain ⟨-, -, hfull⟩ := hu
  obtain ⟨-, -, hfull'⟩ := hv
  have hleast := le_target (m * m') (e + e')
  have hpos : m * m' ≠ 0 := (Nat.mul_pos hm hm').ne'
  by_cases hlong : 2 ^ 52 ≤ m * m'
  · have hlog : 52 ≤ (m * m').log2 := (Nat.le_log2 hpos).mpr hlong
    rw [target]
    omega
  · have hshort : ¬ 2 ^ 52 ≤ m := fun h => hlong (le_trans h (Nat.le_mul_of_pos_right m hm'))
    have hshort' : ¬ 2 ^ 52 ≤ m' := fun h => hlong (le_trans h (Nat.le_mul_of_pos_left m' hm))
    have he := hfull.resolve_left hshort
    have he' := hfull'.resolve_left hshort'
    omega

theorem apply_mul (s s' : Sign) (m m' : Nat) :
    (s * s').apply ((m * m' : Nat) : Int) = s.apply m * s'.apply m' := by
  rw [Nat.cast_mul]
  cases s <;> cases s'
  · exact (neg_mul_neg _ _).symm
  · exact (neg_mul _ _).symm
  · exact (mul_neg _ _).symm
  · rfl

/-- A product is rounded once. -/
theorem rounds_mul {u v : UnpackedFloat} (hu : IsCanonical u) (hv : IsCanonical v) :
    Rounds (number u * number v) (UnpackedFloat.mul Format.binary64 u v) := by
  match u, v, hu, hv with
  | .zero s, .zero s', _, _ =>
      change Rounds (0 * 0) (.zero (s * s'))
      rw [zero_mul]
      exact rounds_zero _
  | .zero s, .finite s' m e hm, _, _ =>
      change Rounds (0 * number (.finite s' m e hm)) (.zero (s * s'))
      rw [zero_mul]
      exact rounds_zero _
  | .finite s m e hm, .zero s', _, _ =>
      change Rounds (number (.finite s m e hm) * 0) (.zero (s * s'))
      rw [mul_zero]
      exact rounds_zero _
  | .finite s m e hm, .finite s' m' e' hm', hu, hv =>
      have hrounds := rounds_roundWithAccuracy (s * s') (Nat.mul_pos hm hm') (le_target_mul hu hv)
      have hproduct : ((s * s').apply ((m * m' : Nat) : Int) : ℚ) * 2 ^ (e + e') =
          s.apply m * 2 ^ e * (s'.apply m' * 2 ^ e') := by
        rw [apply_mul, Int.cast_mul, zpow_add₀ (by norm_num)]
        ring
      rwa [hproduct] at hrounds

theorem approximates_mul {x y : Float} (hx : x.isFinite = true) (hy : y.isFinite = true)
    (h : |value x * value y| < 2 ^ 150) : Approximates (x * y) (value x * value y) :=
  approximates_of_rounds (rounds_mul (isCanonical_unpack hx) (isCanonical_unpack hy)) h

/-- A product with one is kept. -/
theorem number_mul_one {u : UnpackedFloat} (hu : IsCanonical u) :
    number (UnpackedFloat.mul Format.binary64 u
      (.finite .positive (2 ^ 52) (-52) (Nat.two_pow_pos 52))) = number u := by
  match u, hu with
  | .zero s, _ => rfl
  | .finite s m e hm, ⟨hlt, hle, hfull⟩ =>
      have hlog : m.log2 < 53 := (Nat.log2_lt hm.ne').mpr hlt
      have htarget : target m e = e := by
        rw [target]
        rcases hfull with hlong | hleast
        · have hlog' : 52 ≤ m.log2 := (Nat.le_log2 hm.ne').mpr hlong
          omega
        · omega
      have hshift : target (m <<< 52) (e - (52 : Nat)) = e := by
        rw [target_shiftLeft hm, htarget]
      have hbits : (e - (e - ((52 : Nat) : Int))).toNat = 52 := by omega
      have hdvd : 2 ^ (target (m <<< 52) (e - (52 : Nat)) - (e - (52 : Nat))).toNat ∣ m <<< 52 := by
        rw [hshift, hbits, Nat.shiftLeft_eq]
        exact dvd_mul_left _ m
      have hkept := number_roundWithAccuracy_of_dvd s (by omega) hdvd
      rw [apply_shiftLeft] at hkept
      have hmul : UnpackedFloat.mul Format.binary64 (.finite s m e hm)
          (.finite .positive (2 ^ 52) (-52) (Nat.two_pow_pos 52)) =
            roundWithAccuracy Format.binary64 s (m <<< 52) (e - (52 : Nat)) .exact := by
        cases s <;> simp only [Nat.shiftLeft_eq] <;> rfl
      rw [hmul]
      exact hkept

end DeskCalc.Double
