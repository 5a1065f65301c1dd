import Mathlib
import FlatFourier.Decimal

namespace FlatFourier

open Float.Model Float.Model.UnpackedFloat

section Fields

variable (b : BitVec Format.binary64.numBits)

theorem toNat_unpackSign : (unpackSign b).toNat = b.toNat / signBit := by
  have hlt : b.toNat < 2 * signBit := b.isLt
  change b.toNat >>> 63 % 2 = _
  rw [Nat.shiftRight_eq_div_pow]
  simp only [signBit] at *
  omega

theorem toNat_unpackExponent :
    (unpackExponent b).toNat = b.toNat % signBit / Binary.implicitBit := by
  change b.toNat >>> 52 % 2048 = _
  rw [Nat.shiftRight_eq_div_pow]
  simp only [signBit, Binary.implicitBit]
  omega

theorem toNat_unpackMantissa : (unpackMantissa b).toNat = b.toNat % Binary.implicitBit := by
  change b.toNat >>> 0 % 4503599627370496 = _
  rw [Nat.shiftRight_zero]
  rfl

/-- The mantissa of a normal number, with its first bit, which has no place in the fields. -/
theorem toNat_implicit :
    (1#1 ++ unpackMantissa b).toNat = Binary.implicitBit + b.toNat % Binary.implicitBit := by
  rw [BitVec.toNat_append, ← Nat.shiftLeft_add_eq_or_of_lt (unpackMantissa b).isLt,
    toNat_unpackMantissa]
  rfl

theorem ofBitVec_unpackSign :
    Sign.ofBitVec (unpackSign b) = if signBit ≤ b.toNat then .negative else .positive := by
  have hlt : b.toNat < 2 * signBit := b.isLt
  have hsign := toNat_unpackSign b
  by_cases h : signBit ≤ b.toNat
  · have hone : unpackSign b = 1#1 := by
      apply BitVec.eq_of_toNat_eq
      rw [hsign]
      simp only [signBit] at *
      change _ = 1
      omega
    rw [if_pos h, hone]
    rfl
  · have hzero : unpackSign b = 0#1 := by
      apply BitVec.eq_of_toNat_eq
      rw [hsign]
      exact Nat.div_eq_of_lt (Nat.not_le.mp h)
    rw [if_neg h, hzero]
    rfl

theorem toBitVec_ofBitVec (s : BitVec 1) : (Sign.ofBitVec s).toBitVec = s := by
  rcases BitVec.eq_zero_or_eq_one s with rfl | rfl <;> rfl

theorem toNat_packComponents (s : Sign) (e : BitVec 11) (m : BitVec 52) :
    (packComponents .binary64 s e m).toNat =
      s.toBitVec.toNat * signBit + e.toNat * Binary.implicitBit + m.toNat := by
  have he := e.isLt
  have hm := m.isLt
  simp only [packComponents, BitVec.toNat_append]
  rw [← Nat.shiftLeft_add_eq_or_of_lt hm, ← Nat.shiftLeft_add_eq_or_of_lt he, Nat.shiftLeft_eq,
    Nat.shiftLeft_eq]
  simp only [signBit, Binary.implicitBit]
  omega

/-- Sign, exponent field and fraction make up all the bits. -/
theorem packComponents_unpack :
    packComponents .binary64 (Sign.ofBitVec (unpackSign b)) (unpackExponent b)
      (unpackMantissa b) = b := by
  apply BitVec.eq_of_toNat_eq
  rw [toNat_packComponents, toBitVec_ofBitVec, toNat_unpackSign, toNat_unpackExponent,
    toNat_unpackMantissa]
  simp only [signBit, Binary.implicitBit]
  omega

end Fields

/-- Packing a nonzero finite number, by its place: a full mantissa has an exponent field of its own,
a smaller one has the field zero. -/
theorem pack_finite {m : Nat} {e : Int} (sign : Sign) (hm : 0 < m)
    (he : (e + 1075).toNat + 1 < 2048) :
    UnpackedFloat.pack .binary64 (.finite sign m e hm) =
      packComponents .binary64 sign (if m.log2 = 52 then BitVec.ofNat 11 (e + 1075).toNat else 0#11)
        (BitVec.ofNat 52 m) := by
  have hbias :
      e + ((Format.binary64.exponentBias : Nat) : Int) + ((52 : Nat) : Int) = e + 1075 := by
    change e + 1023 + 52 = e + 1075
    omega
  simp only [UnpackedFloat.pack]
  rw [hbias, if_neg (by change ¬2048 ≤ _; omega)]
  change (if m.log2 + 1 = 53 then _ else _) = _
  by_cases hl : m.log2 = 52
  · rw [if_pos (by omega), if_pos hl]
  · rw [if_neg (by omega), if_neg hl]

theorem pack_unpack {b : BitVec Format.binary64.numBits} (hb : Format.binary64.Valid b) :
    UnpackedFloat.pack .binary64 (UnpackedFloat.unpack .binary64 b) = b := by
  have hmant : (unpackMantissa b).toNat < 4503599627370496 := (unpackMantissa b).isLt
  have hexp : (unpackExponent b).toNat < 2048 := (unpackExponent b).isLt
  have hself := packComponents_unpack b
  simp only [UnpackedFloat.unpack]
  by_cases htop : unpackExponent b = -1#11
  · rw [if_pos htop]
    by_cases hz : unpackMantissa b = 0#52
    · rw [if_pos hz]
      rw [htop, hz] at hself
      exact hself
    · rw [if_neg hz]
      exact (hb.eq_packedNaN htop hz).symm
  · rw [if_neg htop]
    by_cases hlow : unpackExponent b = 0#11
    · rw [if_pos hlow]
      by_cases hz : unpackMantissa b = 0#52
      · rw [dif_pos hz]
        rw [hlow, hz] at hself
        exact hself
      · rw [dif_neg hz, hlow, pack_finite _ _ (by decide), if_neg]
        · rw [hlow] at hself
          simpa using hself
        · intro hl
          have hne : (unpackMantissa b).toNat ≠ 0 := fun h => hz (BitVec.eq_of_toNat_eq h)
          have := Nat.log2_self_le hne
          rw [hl] at this
          omega
    · have hfull :
          (1#1 ++ unpackMantissa b).toNat = 4503599627370496 + (unpackMantissa b).toNat := by
        rw [toNat_implicit, toNat_unpackMantissa]
        rfl
      have hne : (unpackExponent b).toNat ≠ 2047 := fun h => htop (BitVec.eq_of_toNat_eq h)
      have hbias : ((unpackExponent b).toNat : Int) -
          (((Format.binary64.exponentBias : Nat) : Int) + ((52 : Nat) : Int)) + 1075 =
          (unpackExponent b).toNat := by
        change ((unpackExponent b).toNat : Int) - (1023 + 52) + 1075 = _
        omega
      rw [if_neg hlow, pack_finite _ _ (by rw [hbias]; omega), hbias, if_pos]
      · have hm : BitVec.ofNat 52 (1#1 ++ unpackMantissa b).toNat = unpackMantissa b := by
          apply BitVec.eq_of_toNat_eq
          rw [BitVec.toNat_ofNat, hfull]
          change (4503599627370496 + _) % 4503599627370496 = _
          omega
        rw [hm]
        simpa using hself
      · rw [hfull, Nat.log2_eq_iff (by omega)]
        change 4503599627370496 ≤ _ ∧ _ < 9007199254740992
        omega

/-- A float is determined by its bits. -/
theorem ofBits_toBits (x : Float) : Float.ofBits x.toBits = x := by
  obtain ⟨⟨bits, valid⟩⟩ := x
  have h := pack_unpack valid
  simp only [Float.toBits, Float.ofBits, Float.Model.ofBits, Float.Model.pack, h]

theorem eq_of_toBits {x y : Float} (h : x.toBits = y.toBits) : x = y := by
  rw [← ofBits_toBits x, h, ofBits_toBits]

theorem ofModel_pack_unpack (x : Float) :
    Float.ofModel (Float.Model.pack x.toModel.unpack) = x := by
  obtain ⟨⟨bits, valid⟩⟩ := x
  have h := pack_unpack valid
  apply eq_of_toBits
  simp only [Float.Model.pack, Float.Model.unpack, Float.toBits, h]

theorem eq_of_compare {a b : UnpackedFloat} (h : a.compare b = some .eq) :
    a = b ∨ ∃ s t, a = .zero s ∧ b = .zero t := by
  cases a with
  | notANumber => cases h
  | infinity s =>
    cases b with
    | infinity t => cases s <;> cases t <;> first | exact .inl rfl | cases h
    | _ => cases s <;> cases h
  | zero s =>
    cases b with
    | zero t => exact .inr ⟨s, t, rfl, rfl⟩
    | notANumber => cases h
    | infinity t => cases t <;> cases h
    | finite t m e hm => cases t <;> cases h
  | finite s m e hm =>
    cases b with
    | notANumber => cases s <;> cases h
    | infinity t => cases s <;> cases t <;> cases h
    | zero t => cases s <;> cases h
    | finite t m' e' hm' =>
      left
      cases s <;> cases t <;> simp [UnpackedFloat.compare, Ordering.then_eq_eq] at h <;> simp [h]

/-- Floats that compare equal are the same float, or both zero. -/
theorem same_or_zero_of_beq {x y : Float} (h : (x == y) = true) :
    x = y ∨ ∃ s t, x.toModel.unpack = .zero s ∧ y.toModel.unpack = .zero t := by
  rcases eq_of_compare (eq_of_beq h) with he | he
  · left
    rw [← ofModel_pack_unpack x, he, ofModel_pack_unpack]
  · exact .inr he

theorem eq_zero_of_beq {x : Float} (h : (x == 0) = true) : x = 0 ∨ x = -0.0 := by
  rcases same_or_zero_of_beq h with he | ⟨s, t, hs, _⟩
  · exact .inl he
  · rw [← ofModel_pack_unpack x, hs]
    cases s with
    | positive => exact .inl (eq_of_toBits rfl)
    | negative => exact .inr (eq_of_toBits rfl)

theorem eq_one_of_beq {x : Float} (h : (x == 1) = true) : x = 1 := by
  rcases same_or_zero_of_beq h with he | ⟨s, t, _, ht⟩
  · exact he
  · cases ht

theorem eq_neg_one_of_beq {x : Float} (h : (x == -1) = true) : x = -1 := by
  rcases same_or_zero_of_beq h with he | ⟨s, t, _, ht⟩
  · exact he
  · cases ht

/-- A float is determined by its sign and its magnitude. -/
theorem ofMagnitude_magnitude (x : Float) : ofMagnitude (isNegative x) (magnitude x) = x := by
  have hlt : x.toBits.toNat < 2 * signBit := x.toBits.toNat_lt
  have hbits : magnitude x + (if isNegative x then signBit else 0) = x.toBits.toNat := by
    unfold magnitude isNegative
    by_cases h : signBit ≤ x.toBits.toNat
    · simp only [h, decide_true, if_true]
      simp only [signBit] at *
      omega
    · simp only [h, decide_false, Bool.false_eq_true, if_false]
      simp only [signBit] at *
      omega
  rw [ofMagnitude, hbits, UInt64.ofNat_toNat, ofBits_toBits]

/-- The patterns of NaN are those beyond the pattern of infinity. -/
theorem fields_of_nan {b : BitVec Format.binary64.numBits} :
    unpackExponent b = -1#11 ∧ unpackMantissa b ≠ 0#52 ↔ Binary.infinity < b.toNat % signBit := by
  have hexp : unpackExponent b = -1#11 ↔ b.toNat % signBit / Binary.implicitBit = 2047 := by
    rw [← toNat_unpackExponent]
    exact BitVec.toNat_inj.symm
  have hmant : unpackMantissa b = 0#52 ↔ b.toNat % Binary.implicitBit = 0 := by
    rw [← toNat_unpackMantissa]
    exact BitVec.toNat_inj.symm
  rw [hexp, ne_eq, hmant]
  simp only [signBit, Binary.implicitBit, Binary.infinity]
  omega

/-- All other patterns are bits of floats. -/
theorem toBits_ofBits {bits : UInt64} (h : bits.toNat % signBit ≤ Binary.infinity) :
    (Float.ofBits bits).toBits = bits := by
  have hvalid : Format.binary64.Valid bits.toBitVec :=
    ⟨fun he hm => absurd (fields_of_nan.mp ⟨he, hm⟩) (Nat.not_lt.mpr h)⟩
  change UInt64.ofBitVec (UnpackedFloat.pack .binary64 (.unpack .binary64 bits.toBitVec)) = bits
  rw [pack_unpack hvalid]

theorem isNaN_ofBits {bits : UInt64} (h : Binary.infinity < bits.toNat % signBit) :
    (Float.ofBits bits).isNaN = true := by
  obtain ⟨he, hm⟩ := (fields_of_nan (b := bits.toBitVec)).mpr h
  have hunpack : UnpackedFloat.unpack .binary64 bits.toBitVec = .notANumber :=
    (if_pos he).trans (if_neg hm)
  change (Float.ofModel (Float.Model.pack (.unpack .binary64 bits.toBitVec))).isNaN = true
  rw [hunpack]
  rfl

theorem eq_packedNaN {b : BitVec Format.binary64.numBits} (hb : Format.binary64.Valid b)
    (h : Binary.infinity < b.toNat % signBit) : b = packedNaN .binary64 := by
  obtain ⟨he, hm⟩ := fields_of_nan.mpr h
  exact hb.eq_packedNaN he hm

/-- There is only one NaN. -/
theorem eq_nan_of_magnitude {x : Float} (h : Binary.infinity < magnitude x) :
    x = ofMagnitude false Binary.nan := by
  obtain ⟨⟨bits, valid⟩⟩ := x
  have hbits : bits = 0x7ff8000000000000 := UInt64.toBitVec_inj.mp (eq_packedNaN valid h)
  subst hbits
  exact eq_of_toBits rfl

/-- The number as a rational one. -/
def Binary.rational (b : Binary) : ℚ :=
  b.mantissa * 2 ^ b.exponent

/-- The rational number of a sign, a mantissa and an exponent. -/
def unpackedRational? : UnpackedFloat → Option ℚ
  | .zero _ => some 0
  | .finite .positive m e _ => some (m * 2 ^ e)
  | .finite .negative m e _ => some (-(m * 2 ^ e))
  | _ => none

/-- The rational number that a float stands for, if it is finite. -/
def rational? (x : Float) : Option ℚ :=
  unpackedRational? x.toModel.unpack

section Rational

variable {b : BitVec Format.binary64.numBits}

/-- The fields of a finite number as its sign, mantissa and exponent. -/
theorem unpack_of_lt (h : b.toNat % signBit < Binary.infinity) :
    let value := Binary.ofMagnitude (b.toNat % signBit)
    let sign : Sign := if signBit ≤ b.toNat then .negative else .positive
    UnpackedFloat.unpack .binary64 b =
      if hm : 0 < value.mantissa then .finite sign value.mantissa value.exponent hm
      else .zero sign := by
  have hexp := toNat_unpackExponent b
  have hmant := toNat_unpackMantissa b
  have htop : unpackExponent b ≠ -1#11 := by
    intro he
    rw [he] at hexp
    change 2047 = _ at hexp
    simp only [signBit, Binary.implicitBit, Binary.infinity] at *
    omega
  simp only [UnpackedFloat.unpack, ofBitVec_unpackSign]
  rw [if_neg htop]
  by_cases hlow : unpackExponent b = 0#11
  · rw [hlow] at hexp
    change 0 = _ at hexp
    have hmag : (unpackMantissa b).toNat = b.toNat % signBit := by
      rw [hmant]
      simp only [signBit, Binary.implicitBit] at *
      omega
    have hvalue : Binary.ofMagnitude (b.toNat % signBit) =
        ⟨(unpackMantissa b).toNat, Binary.minExponent⟩ := by
      rw [Binary.ofMagnitude, if_pos hexp.symm, hmag]
    rw [if_pos hlow, hvalue]
    by_cases hz : unpackMantissa b = 0#52
    · rw [dif_pos hz, dif_neg (by simp [hz])]
    · have hpos : 0 < (unpackMantissa b).toNat :=
        Nat.pos_of_ne_zero fun h => hz (BitVec.eq_of_toNat_eq h)
      rw [dif_neg hz, dif_pos hpos, hlow]
      rfl
  · have hne : b.toNat % signBit / Binary.implicitBit ≠ 0 := by
      rw [← hexp]
      exact fun h => hlow (BitVec.eq_of_toNat_eq h)
    have hvalue : Binary.ofMagnitude (b.toNat % signBit) =
        ⟨(1#1 ++ unpackMantissa b).toNat, (unpackExponent b).toNat - 1075⟩ := by
      rw [Binary.ofMagnitude, if_neg hne, toNat_implicit, hexp]
      simp only [signBit, Binary.implicitBit, Binary.minExponent, Binary.mk.injEq]
      omega
    have hpos : 0 < (1#1 ++ unpackMantissa b).toNat := by
      rw [toNat_implicit, Binary.implicitBit]
      omega
    rw [if_neg hlow, hvalue, dif_pos hpos]
    rfl

theorem unpackedRational?_of_lt (h : b.toNat % signBit < Binary.infinity) :
    unpackedRational? (UnpackedFloat.unpack .binary64 b) =
      some (if signBit ≤ b.toNat then -(Binary.ofMagnitude (b.toNat % signBit)).rational
        else (Binary.ofMagnitude (b.toNat % signBit)).rational) := by
  rw [unpack_of_lt h]
  generalize Binary.ofMagnitude (b.toNat % signBit) = value
  by_cases hm : 0 < value.mantissa
  · rw [dif_pos hm]
    by_cases hs : signBit ≤ b.toNat
    · simp only [hs, if_true, unpackedRational?, Binary.rational]
    · simp only [hs, if_false, unpackedRational?, Binary.rational]
  · rw [dif_neg hm]
    simp [unpackedRational?, Binary.rational, Nat.eq_zero_of_not_pos hm]

theorem unpackedRational?_of_le (h : Binary.infinity ≤ b.toNat % signBit) :
    unpackedRational? (UnpackedFloat.unpack .binary64 b) = none := by
  have hlt : b.toNat % signBit < signBit := Nat.mod_lt _ (by decide)
  have htop : unpackExponent b = -1#11 := by
    apply BitVec.eq_of_toNat_eq
    rw [toNat_unpackExponent]
    change _ = 2047
    simp only [signBit, Binary.implicitBit, Binary.infinity] at *
    omega
  simp only [UnpackedFloat.unpack]
  rw [if_pos htop]
  split
  · rfl
  · rfl

end Rational

/-- The class of a float tells which rational number it stands for. -/
theorem rational?_eq (x : Float) : rational? x = match classify x with
    | .finite negative value => some (if negative then -value.rational else value.rational)
    | _ => none := by
  obtain ⟨⟨bits, valid⟩⟩ := x
  change unpackedRational? (UnpackedFloat.unpack .binary64 bits.toBitVec) = _
  unfold classify
  split_ifs with hnan hinf
  · exact unpackedRational?_of_le (Nat.le_of_lt hnan)
  · exact unpackedRational?_of_le (Nat.le_of_eq hinf.symm)
  · refine (unpackedRational?_of_lt ?_).trans ?_
    · exact Nat.lt_of_le_of_ne (Nat.not_lt.mp hnan) hinf
    · simp only [isNegative, decide_eq_true_eq]
      rfl

namespace Binary

theorem rational_eq (b : Binary) : b.rational = b.ratio.1 / b.ratio.2 := by
  have he : b.exponent = b.exponent.toNat - (-b.exponent).toNat := by omega
  rw [rational, he, zpow_sub₀ (by norm_num), zpow_natCast, zpow_natCast]
  simp [ratio, mul_div_assoc]

theorem rational_nonneg (b : Binary) : 0 ≤ b.rational := by
  unfold rational
  positivity

theorem isOddInteger_iff (b : Binary) :
    b.isOddInteger = true ↔ ∃ n : ℕ, Odd n ∧ b.rational = n := by
  have hden : b.ratio.2 ≠ 0 := (Nat.pow_pos (by decide)).ne'
  rw [rational_eq, isOddInteger, Bool.and_eq_true, decide_eq_true_iff, decide_eq_true_iff]
  simp only [← Nat.odd_iff]
  constructor
  · rintro ⟨hmod, hodd⟩
    refine ⟨_, hodd, ?_⟩
    rw [Nat.cast_div (Nat.dvd_of_mod_eq_zero hmod) (by exact_mod_cast hden)]
  · rintro ⟨n, hodd, hn⟩
    rw [div_eq_iff (by exact_mod_cast hden)] at hn
    have hnum : b.ratio.1 = n * b.ratio.2 := by exact_mod_cast hn
    rw [hnum]
    refine ⟨Nat.mul_mod_left _ _, ?_⟩
    rwa [Nat.mul_div_cancel _ (Nat.pos_of_ne_zero hden)]

end Binary

end FlatFourier
