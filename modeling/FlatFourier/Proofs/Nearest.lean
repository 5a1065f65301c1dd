import FlatFourier.Decimal

namespace FlatFourier

/-- Whether `num / den` is at least `2 ^ e`. -/
def AtLeast (e : Int) (num den : Nat) : Prop :=
  den * Nat.pow 2 e.toNat ≤ num * Nat.pow 2 (-e).toNat

theorem two_pow_add (a b : Nat) : Nat.pow 2 (a + b) = Nat.pow 2 a * Nat.pow 2 b :=
  Nat.pow_add 2 a b

theorem two_pow_pos (a : Nat) : 0 < Nat.pow 2 a :=
  Nat.two_pow_pos a

namespace AtLeast

variable {e e' : Int} {num den : Nat}

theorem iff_shift {a b : Nat} (h : (a : Int) - b = e) :
    AtLeast e num den ↔ den * Nat.pow 2 a ≤ num * Nat.pow 2 b := by
  obtain ⟨c, ha, hb⟩ : ∃ c, a = e.toNat + c ∧ b = (-e).toNat + c :=
    ⟨min a b, by omega, by omega⟩
  rw [ha, hb, two_pow_add, two_pow_add, ← Nat.mul_assoc, ← Nat.mul_assoc]
  exact (Nat.mul_le_mul_right_iff (two_pow_pos c)).symm

theorem mono (h : AtLeast e' num den) (he : e ≤ e') : AtLeast e num den := by
  have h' := (iff_shift (a := (e' + (-e).toNat).toNat) (b := (-e).toNat) (by omega)).mp h
  refine (iff_shift (a := e.toNat) (b := (-e).toNat) (by omega)).mpr (Nat.le_trans ?_ h')
  exact Nat.mul_le_mul_left _ (Nat.pow_le_pow_right (by decide) (by omega))

theorem scale {c : Nat} (hc : 0 < c) : AtLeast e (c * num) (c * den) ↔ AtLeast e num den := by
  unfold AtLeast
  rw [Nat.mul_assoc, Nat.mul_assoc]
  exact Nat.mul_le_mul_left_iff hc

end AtLeast

section FloorLog2

variable {num den : Nat}

theorem floorLog2_spec (hn : 0 < num) (hd : 0 < den) :
    AtLeast (floorLog2 num den) num den ∧ ¬AtLeast (floorLog2 num den + 1) num den := by
  have hn₁ : Nat.pow 2 num.log2 ≤ num := Nat.log2_self_le (by omega)
  have hn₂ : num < Nat.pow 2 (num.log2 + 1) := Nat.lt_log2_self
  have hd₁ : Nat.pow 2 den.log2 ≤ den := Nat.log2_self_le (by omega)
  have hd₂ : den < Nat.pow 2 (den.log2 + 1) := Nat.lt_log2_self
  have low : AtLeast ((num.log2 : Int) - den.log2 - 1) num den := by
    refine (AtLeast.iff_shift (a := num.log2) (b := den.log2 + 1) (by omega)).mpr ?_
    rw [Nat.mul_comm]
    exact Nat.mul_le_mul hn₁ (Nat.le_of_lt hd₂)
  have high : ¬AtLeast ((num.log2 : Int) - den.log2 + 1) num den := by
    rw [AtLeast.iff_shift (a := num.log2 + 1) (b := den.log2) (by omega), Nat.not_le,
      Nat.mul_comm den]
    exact Nat.mul_lt_mul_of_lt_of_le hn₂ hd₁ hd
  by_cases h : AtLeast ((num.log2 : Int) - den.log2) num den
  · have he : floorLog2 num den = (num.log2 : Int) - den.log2 := if_pos h
    rw [he]
    exact ⟨h, high⟩
  · have he : floorLog2 num den = (num.log2 : Int) - den.log2 - 1 := if_neg h
    rw [he, Int.sub_add_cancel]
    exact ⟨low, h⟩

theorem floorLog2_eq {e : Int} (hn : 0 < num) (hd : 0 < den) (h : AtLeast e num den)
    (h' : ¬AtLeast (e + 1) num den) : floorLog2 num den = e := by
  obtain ⟨hf, hf'⟩ := floorLog2_spec hn hd
  rcases Int.lt_trichotomy (floorLog2 num den) e with hlt | heq | hgt
  · exact absurd (h.mono (by omega)) hf'
  · exact heq
  · exact absurd (hf.mono (by omega)) h'

theorem floorLog2_scale {c : Nat} (hc : 0 < c) (hn : 0 < num) (hd : 0 < den) :
    floorLog2 (c * num) (c * den) = floorLog2 num den := by
  obtain ⟨h, h'⟩ := floorLog2_spec hn hd
  exact floorLog2_eq (Nat.mul_pos hc hn) (Nat.mul_pos hc hd) ((AtLeast.scale hc).mpr h)
    (mt (AtLeast.scale hc).mp h')

end FloorLog2

theorem divNearest_scale {a b c : Nat} (hc : 0 < c) :
    divNearest (c * a) (c * b) = divNearest a b := by
  unfold divNearest
  rw [Nat.mul_div_mul_left _ _ hc, Nat.mul_mod_mul_left, Nat.mul_left_comm 2]
  simp only [Nat.mul_lt_mul_left hc, Nat.mul_right_inj (Nat.pos_iff_ne_zero.mp hc)]

theorem divNearest_mul {a b : Nat} (hb : 0 < b) : divNearest (a * b) b = a := by
  unfold divNearest
  rw [Nat.mul_div_cancel _ hb, Nat.mul_mod_left]
  exact if_neg (by omega)

/-- The rounding of a quotient depends only on its value. -/
theorem nearestMagnitude_scale {num den c : Nat} (hc : 0 < c) (hn : 0 < num) (hd : 0 < den) :
    nearestMagnitude (c * num) (c * den) = nearestMagnitude num den := by
  unfold nearestMagnitude
  rw [floorLog2_scale hc hn hd]
  simp only [Nat.mul_assoc, divNearest_scale hc]

/-- A quotient that is a floating-point number is rounded to that number. -/
theorem nearestMagnitude_eq {num den m : Nat} {e : Int} (hm : 0 < m) (hn : 0 < num) (hd : 0 < den)
    (hv : num * Nat.pow 2 (-e).toNat = m * (den * Nat.pow 2 e.toNat))
    (he : max Binary.minExponent (m.log2 + e - Binary.fractionBits) = e) :
    nearestMagnitude num den = min (Binary.toMagnitude ⟨m, e⟩) Binary.infinity := by
  have hpow : 0 < den * Nat.pow 2 e.toNat := Nat.mul_pos hd (two_pow_pos _)
  have atLeast : ∀ l : Nat, AtLeast (l + e) num den ↔ Nat.pow 2 l ≤ m := by
    intro l
    rw [AtLeast.iff_shift (a := e.toNat + l) (b := (-e).toNat) (by omega), hv, two_pow_add,
      ← Nat.mul_assoc, Nat.mul_comm m]
    exact Nat.mul_le_mul_left_iff hpow
  have hlog : floorLog2 num den = m.log2 + e := by
    refine floorLog2_eq hn hd ((atLeast _).mpr (Nat.log2_self_le (by omega))) ?_
    have hlt : m < Nat.pow 2 (m.log2 + 1) := Nat.lt_log2_self
    have hnot := mt (atLeast (m.log2 + 1)).mp (Nat.not_le.mpr hlt)
    rwa [Int.natCast_add, Int.natCast_one, Int.add_right_comm] at hnot
  simp only [nearestMagnitude, hlog, he]
  rw [hv, divNearest_mul hpow]

namespace Binary

variable {bits : Nat}

theorem ofMagnitude_low (h : bits < implicitBit) : ofMagnitude bits = ⟨bits, minExponent⟩ :=
  if_pos (Nat.div_eq_of_lt h)

theorem ofMagnitude_high (h : implicitBit ≤ bits) :
    ofMagnitude bits =
      ⟨implicitBit + bits % implicitBit, minExponent + (bits / implicitBit : Nat) - 1⟩ :=
  if_neg (Nat.pos_iff_ne_zero.mp (Nat.div_pos h (by decide)))

theorem toMagnitude_ofMagnitude (bits : Nat) : (ofMagnitude bits).toMagnitude = bits := by
  rcases Nat.lt_or_ge bits implicitBit with h | h
  · rw [ofMagnitude_low h]
    simp [toMagnitude]
  · rw [ofMagnitude_high h]
    simp only [toMagnitude, minExponent, implicitBit] at *
    omega

theorem mantissa_pos (h : bits ≠ 0) : 0 < (ofMagnitude bits).mantissa := by
  rcases Nat.lt_or_ge bits implicitBit with hb | hb
  · rw [ofMagnitude_low hb]
    exact Nat.pos_of_ne_zero h
  · rw [ofMagnitude_high hb]
    exact Nat.add_pos_left (by decide) _

/-- The exponent is the one that rounding gives to the number. -/
theorem max_exponent (h : bits ≠ 0) :
    max minExponent
        ((ofMagnitude bits).mantissa.log2 + (ofMagnitude bits).exponent - fractionBits) =
      (ofMagnitude bits).exponent := by
  rcases Nat.lt_or_ge bits implicitBit with hb | hb
  · have hlog : bits.log2 < 52 := (Nat.log2_lt h).mpr hb
    rw [ofMagnitude_low hb]
    simp only [minExponent, fractionBits]
    omega
  · have hlog : (implicitBit + bits % implicitBit).log2 = 52 := by
      rw [Nat.log2_eq_iff (by simp only [implicitBit]; omega)]
      simp only [implicitBit]
      omega
    have hfield := Nat.div_pos hb (by decide)
    rw [ofMagnitude_high hb]
    simp only [hlog, minExponent, fractionBits]
    omega

end Binary

namespace Decimal

theorem nearest_of_reach {d : Decimal} (hz : d.digits ≠ 0) (hu : d.exponent ≤ reach)
    (hl : -(reach + d.digits.log2 : Int) ≤ d.exponent) :
    d.nearest = nearestMagnitude (d.digits * Nat.pow 10 d.exponent.toNat)
      (Nat.pow 10 (-d.exponent).toNat) := by
  unfold nearest
  rw [if_neg hz, if_neg (by omega), if_neg (by omega)]

/-- All digits of a number read back as the number. -/
theorem exact_nearest {bits : Nat} (hb : bits ≠ 0) (hfin : bits < Binary.infinity) :
    (exact (Binary.ofMagnitude bits)).nearest = bits := by
  have hm := Binary.mantissa_pos hb
  have he := Binary.max_exponent hb
  have hbits := Binary.toMagnitude_ofMagnitude bits
  generalize Binary.ofMagnitude bits = b at *
  obtain ⟨m, e⟩ := b
  have hround : ∀ num den : Nat, 0 < num → 0 < den →
      num * Nat.pow 2 (-e).toNat = m * (den * Nat.pow 2 e.toNat) →
      nearestMagnitude num den = bits := by
    intro num den hn hd hv
    rw [nearestMagnitude_eq hm hn hd hv he, hbits]
    omega
  unfold exact
  by_cases hpos : 0 ≤ e
  · have hd : m * Nat.pow 2 e.toNat ≠ 0 := Nat.ne_of_gt (Nat.mul_pos hm (two_pow_pos _))
    rw [if_pos hpos, nearest_of_reach hd (by simp [reach]) (by simp only [reach]; omega)]
    have hzero : (-e).toNat = 0 := by omega
    change nearestMagnitude (m * Nat.pow 2 e.toNat * 1) 1 = bits
    refine hround _ _ (by omega) Nat.one_pos ?_
    rw [hzero, Nat.mul_one, Nat.one_mul]
    exact Nat.mul_one _
  · have hzero : e.toNat = 0 := by omega
    have hfive : Nat.pow 2 (-e).toNat ≤ Nat.pow 5 (-e).toNat := Nat.pow_le_pow_left (by decide) _
    have hten : Nat.pow 5 (-e).toNat * Nat.pow 2 (-e).toNat = Nat.pow 10 (-e).toNat :=
      (Nat.mul_pow 5 2 (-e).toNat).symm
    have hd : Nat.pow 2 (-e).toNat ≤ m * Nat.pow 5 (-e).toNat :=
      Nat.le_trans hfive (Nat.le_mul_of_pos_left _ hm)
    have hpos : 0 < m * Nat.pow 5 (-e).toNat := Nat.lt_of_lt_of_le (two_pow_pos _) hd
    have hlog : (-e).toNat ≤ (m * Nat.pow 5 (-e).toNat).log2 := (Nat.le_log2 (by omega)).mpr hd
    rw [if_neg ‹_›, nearest_of_reach (by simp only; omega) (by simp only [reach]; omega)
      (by simp only [reach]; omega)]
    simp only [hzero]
    change nearestMagnitude (m * Nat.pow 5 (-e).toNat * 1) (Nat.pow 10 (-e).toNat) = bits
    refine hround _ _ (by omega) (Nat.pow_pos (by decide)) ?_
    rw [hzero, Nat.mul_one, Nat.mul_assoc, hten]
    exact congrArg (m * ·) (Nat.mul_one _).symm

theorem nearest_of_neighbour {bits num den : Nat} {exponent : Int} {d : Decimal}
    (h : neighbour? bits num den exponent = some d) : d.nearest = bits := by
  have main : ∀ p : Decimal × Decimal, (if p.1.nearest = bits then some p.1
      else if p.2.nearest = bits then some p.2 else none) = some d → d.nearest = bits := by
    intro p hp
    by_cases hn : p.1.nearest = bits
    · rw [if_pos hn] at hp
      cases hp
      exact hn
    · rw [if_neg hn, Option.ite_none_right_eq_some] at hp
      obtain ⟨hf, hp⟩ := hp
      cases hp
      exact hf
  exact main _ h

/-- The shortest decimal of a finite number reads back as the number. -/
theorem nearest_shortest {bits : Nat} (hfin : bits < Binary.infinity) :
    (shortest bits).nearest = bits := by
  unfold shortest
  by_cases hb : bits = 0
  · simp [hb, nearest]
  · rw [if_neg hb]
    simp only
    cases hf : (List.range grids).findSome? _ with
    | none => exact exact_nearest hb hfin
    | some d =>
      obtain ⟨step, _, hd⟩ := List.exists_of_findSome?_eq_some hf
      exact nearest_of_neighbour hd

end Decimal

end FlatFourier
