import FlatFourier.Listing
import FlatFourier.Proofs.Cutting
import FlatFourier.Proofs.FloatBits
import FlatFourier.Proofs.Nearest
import FlatFourier.Program.Reader

namespace FlatFourier

namespace Text

theorem span_digits (hs : Digits s) (hr : EndsNumber rest) :
    (s ++ rest).span Char.isDigit = (s, rest) := by
  have main : ∀ acc, List.span.loop Char.isDigit (s ++ rest) acc = (acc.reverse ++ s, rest) := by
    induction s with
    | nil =>
      intro acc
      cases rest with
      | nil => simp [List.span.loop]
      | cons c rest => simp [List.span.loop, hr c rfl]
    | cons c s ih =>
      intro acc
      have hc := hs c (by simp)
      simp [List.span.loop, hc, ih fun d hd => hs d (by simp [hd])]
  exact main []

theorem sign_of_digit (h : c.isDigit = true) (s : Text) : sign (c :: s) = (false, c :: s) := by
  unfold sign
  split
  · rename_i he
    cases he
    cases h
  · rename_i he
    cases he
    cases h
  · rfl

theorem integer?_toDigits (n : Int) :
    integer? ((if n < 0 then ['-'] else []) ++ Nat.toDigits 10 n.natAbs) = some n := by
  obtain ⟨c, s, hs, hc⟩ := startsNumber_toDigits n.natAbs
  unfold integer?
  by_cases hn : n < 0
  · simp only [hn, if_true, List.cons_append, List.nil_append, sign, isNumeral_toDigits,
      numeral_toDigits, Option.some.injEq]
    omega
  · simp only [hn, if_false, List.nil_append]
    rw [hs, sign_of_digit hc, ← hs]
    simp only [isNumeral_toDigits, numeral_toDigits, if_true, Option.some.injEq,
      Bool.false_eq_true, if_false]
    omega

theorem decimal?_point (hw : Digits whole) (hp : Digits part) (hne : whole ≠ [])
    (hr : EndsNumber rest) (he : exponent? rest = some e) :
    decimal? (whole ++ '.' :: part ++ rest) =
      some ⟨numeral (whole ++ part), e - part.length⟩ := by
  have hpoint : EndsNumber ('.' :: (part ++ rest)) := by
    intro c hc
    cases hc
    rfl
  unfold decimal?
  rw [List.append_assoc, List.cons_append, span_digits hw hpoint]
  simp only [fraction, span_digits hp hr, he, Option.map_some]
  rw [if_neg (by simp [hne])]

theorem decimal?_whole (hw : Digits whole) (hne : whole ≠ []) (hr : EndsNumber rest)
    (hdot : rest.head? ≠ some '.') (he : exponent? rest = some e) :
    decimal? (whole ++ rest) = some ⟨numeral whole, e⟩ := by
  have hfrac : fraction rest = ([], rest) := by
    unfold fraction
    split
    · simp at hdot
    · rfl
  unfold decimal?
  rw [span_digits hw hr]
  simp only [hfrac, he, Option.map_some, List.append_nil, List.length_nil]
  rw [if_neg (by simp [hne])]
  simp

theorem toLower_of_digit {c : Char} (h : c.isDigit = true) : c.toLower = c := by
  simp only [Char.isDigit, Bool.and_eq_true, decide_eq_true_eq] at h
  unfold Char.toLower
  rw [dif_neg]
  grind

theorem magnitude?_of_digit (h : c.isDigit = true) (hs : decimal? (c :: s) = some d) :
    magnitude? (c :: s) = some d.nearest := by
  have word : ∀ w : String, w.toList.head?.any Char.isDigit = false →
      String.ofList ((c :: s).map Char.toLower) ≠ w := by
    intro w hw he
    rw [← he, String.toList_ofList, List.map_cons, List.head?_cons, Option.any_some,
      toLower_of_digit h, h] at hw
    cases hw
  unfold magnitude?
  rw [if_neg, if_neg (word "nan" (by decide)), hs, Option.map_some]
  rw [not_or]
  exact ⟨word "inf" (by decide), word "infinity" (by decide)⟩

/-- A number without a sign. -/
theorem float?_of_digit (h : c.isDigit = true) (hs : decimal? (c :: s) = some d) :
    float? (c :: s) = some (ofMagnitude false d.nearest) := by
  simp [float?, sign_of_digit h, magnitude?_of_digit h hs]

/-- A number with a minus sign. -/
theorem float?_minus (h : c.isDigit = true) (hs : decimal? (c :: s) = some d) :
    float? ('-' :: c :: s) = some (ofMagnitude true d.nearest) := by
  simp [float?, sign, magnitude?_of_digit h hs]

end Text

namespace Decimal

/-- Trailing zeros that the exponent takes back. -/
theorem nearest_shift {d : Nat} {e : Int} (j : Nat) (he : 0 ≤ e) (hu : e ≤ reach) (hj : j ≤ reach) :
    nearest ⟨d * Nat.pow 10 (e.toNat + j), -j⟩ = nearest ⟨d, e⟩ := by
  by_cases hd : d = 0
  · simp [hd, nearest]
  · have hpow : ∀ k, 0 < Nat.pow 10 k := fun k => Nat.pow_pos (by decide)
    have hne : d * Nat.pow 10 (e.toNat + j) ≠ 0 :=
      Nat.ne_of_gt (Nat.mul_pos (by omega) (hpow _))
    rw [nearest_of_reach hne (by simp only [reach] at *; omega) (by simp only [reach] at *; omega),
      nearest_of_reach hd hu (by simp only [reach] at *; omega)]
    have h₁ : (-(j : Int)).toNat = 0 := by omega
    have h₂ : (- -(j : Int)).toNat = j := by omega
    have h₃ : (-e).toNat = 0 := by omega
    have hadd : Nat.pow 10 (e.toNat + j) = Nat.pow 10 e.toNat * Nat.pow 10 j := Nat.pow_add ..
    simp only [h₁, h₂, h₃, hadd]
    change nearestMagnitude (d * (Nat.pow 10 e.toNat * Nat.pow 10 j) * 1) (Nat.pow 10 j) =
      nearestMagnitude (d * Nat.pow 10 e.toNat) 1
    rw [← nearestMagnitude_scale (hpow j) (Nat.mul_pos (Nat.pos_of_ne_zero hd) (hpow _))
      Nat.one_pos, Nat.mul_one, Nat.mul_one, ← Nat.mul_assoc, Nat.mul_comm (Nat.pow 10 j)]

end Decimal

namespace Layout

open Text

variable {layout : Layout}

theorem numeral_zeros (n k : Nat) :
    numeral (Nat.toDigits 10 n ++ List.replicate k '0') = n * Nat.pow 10 k := by
  rw [numeral, Nat.ofDigitChars_append, Nat.ofDigitChars_ten_toDigits,
    Nat.ofDigitChars_replicate_zero]
  exact Nat.mul_comm _ _

theorem numeral_leading (k : Nat) (s : Text) : numeral (List.replicate k '0' ++ s) = numeral s := by
  rw [numeral, Nat.ofDigitChars_append, Nat.ofDigitChars_replicate_zero, Nat.mul_zero]
  rfl

/-- The positional text of a decimal is read as a decimal of the same value. -/
theorem read_positional (n : Nat) {e : Int} (he : e ≤ Decimal.reach) :
    ∃ d, decimal? (layout.positional (Nat.toDigits 10 n) e) = some d ∧
      d.nearest = Decimal.nearest ⟨n, e⟩ := by
  have hend : EndsNumber [] := nofun
  have hdigits := digits_toDigits n
  have hne : Nat.toDigits 10 n ≠ [] := Nat.toDigits_ne_nil
  have hlen : 0 < (Nat.toDigits 10 n).length := Nat.length_toDigits_pos
  unfold positional
  by_cases hpos : 0 ≤ e
  · rw [if_pos hpos]
    have hwhole := hdigits.append (digits_replicate e.toNat)
    cases layout.keepsFraction with
    | true =>
      have hread := decimal?_point hwhole (digits_replicate 1) (by simp [hne]) hend rfl
      rw [List.append_nil, List.append_assoc (Nat.toDigits 10 n) _ (List.replicate 1 '0'),
        List.replicate_append_replicate, numeral_zeros] at hread
      exact ⟨_, hread, Decimal.nearest_shift 1 hpos he (by decide)⟩
    | false =>
      have hread := decimal?_whole hwhole (by simp [hne]) hend (by simp) rfl
      rw [numeral_zeros] at hread
      exact ⟨_, hread, Decimal.nearest_shift 0 hpos he (by decide)⟩
  · rw [if_neg hpos]
    by_cases hpoint : 0 < (Nat.toDigits 10 n).length + e
    · rw [if_pos hpoint]
      generalize hp : ((Nat.toDigits 10 n).length + e).toNat = p
      have htake : (Nat.toDigits 10 n).take p ≠ [] := by
        simp only [ne_eq, List.take_eq_nil_iff, hne, or_false]
        omega
      have hread := decimal?_point (hdigits.take p) (hdigits.drop p) htake hend rfl
      rw [List.append_nil, List.take_append_drop, numeral_toDigits, List.length_drop] at hread
      have hexp : (0 : Int) - ((Nat.toDigits 10 n).length - p : Nat) = e := by omega
      rw [hexp] at hread
      exact ⟨_, hread, rfl⟩
    · rw [if_neg hpoint]
      generalize hk : (-((Nat.toDigits 10 n).length + e)).toNat = k
      have hread := decimal?_point (digits_replicate 1) ((digits_replicate k).append hdigits)
        (by simp) hend rfl
      rw [List.append_nil, numeral_leading, numeral_leading, numeral_toDigits, List.length_append,
        List.length_replicate] at hread
      have hexp : (0 : Int) - (k + (Nat.toDigits 10 n).length : Nat) = e := by omega
      rw [hexp] at hread
      exact ⟨_, hread, rfl⟩

/-- The text of a decimal with an exponent is read as that decimal. -/
theorem read_scientific (n : Nat) (e : Int) :
    decimal? (scientific (Nat.toDigits 10 n) ((Nat.toDigits 10 n).length + e - 1)) =
      some ⟨n, e⟩ := by
  have hnum := numeral_toDigits n
  have hdigits := digits_toDigits n
  obtain ⟨c, s, hs, hc⟩ := startsNumber_toDigits n
  rw [hs] at hnum hdigits ⊢
  generalize hp : ((c :: s).length + e - 1 : Int) = power
  have hexp : exponent? ('e' :: ((if power < 0 then ['-'] else []) ++
      Nat.toDigits 10 power.natAbs)) = some power := by
    simp [exponent?, integer?_toDigits]
  have hend : EndsNumber ('e' :: ((if power < 0 then ['-'] else []) ++
      Nat.toDigits 10 power.natAbs)) := by
    intro c hc
    cases hc
    rfl
  unfold scientific
  cases s with
  | nil =>
    have hread := decimal?_whole hdigits (by simp) hend (by simp) hexp
    have he : power = e := by
      simp only [List.length_cons, List.length_nil] at hp
      omega
    rw [hnum, he] at hread
    simpa [he] using hread
  | cons d s =>
    have hone : Digits [c] := fun x hx => List.mem_singleton.mp hx ▸ hc
    have hread := decimal?_point hone (fun x hx => hdigits x (List.mem_cons_of_mem c hx)) (by simp)
      hend hexp
    have he : power - (d :: s).length = e := by
      simp only [List.length_cons] at hp ⊢
      omega
    have hcat : numeral ([c] ++ d :: s) = n := hnum
    rw [he, hcat] at hread
    simpa using hread

/-- The text of a decimal is read as a decimal of the same value. -/
theorem read_decimal (h : ∀ power, layout.isPositional power = true → power ≤ Decimal.reach)
    (d : Decimal) :
    ∃ d', decimal? (layout.decimal d) = some d' ∧ d'.nearest = d.nearest := by
  unfold decimal
  have hlen : 0 < (Nat.toDigits 10 d.digits).length := Nat.length_toDigits_pos
  by_cases hpos : layout.isPositional ((Nat.toDigits 10 d.digits).length + d.exponent - 1) = true
  · rw [if_pos hpos]
    exact read_positional d.digits (by have := h _ hpos; omega)
  · rw [if_neg hpos]
    exact ⟨d, read_scientific d.digits d.exponent, rfl⟩

theorem startsNumber_decimal (layout : Layout) (d : Decimal) : StartsNumber (layout.decimal d) := by
  have hs := startsNumber_toDigits d.digits
  dsimp only [decimal]
  split
  · dsimp only [positional]
    split
    · exact (hs.append _).append _
    · split
      · exact (hs.take (by omega)).append _
      · exact ⟨'0', _, rfl, rfl⟩
  · exact (((hs.take Nat.one_pos).append _).append _).append _

/-- The text of a finite number is read as that number. -/
theorem read_finite (h : ∀ power, layout.isPositional power = true → power ≤ Decimal.reach)
    (x : Float) (hx : magnitude x < Binary.infinity) : float? (layout.finite x) = some x := by
  obtain ⟨d, hd, hnear⟩ := read_decimal h (Decimal.shortest (magnitude x))
  rw [Decimal.nearest_shortest hx] at hnear
  obtain ⟨c, s, hs, hc⟩ := startsNumber_decimal layout (Decimal.shortest (magnitude x))
  have hself := ofMagnitude_magnitude x
  unfold finite
  rw [hs] at hd ⊢
  cases hn : isNegative x with
  | true =>
    rw [hn] at hself
    exact (float?_minus hc hd).trans (by rw [hnear, hself])
  | false =>
    rw [hn] at hself
    exact (float?_of_digit hc hd).trans (by rw [hnear, hself])

end Layout

namespace Listing

open Text Layout

theorem number_reach (power : Int) (h : number.isPositional power = true) :
    power ≤ Decimal.reach := by
  simp only [number, Bool.and_eq_true, decide_eq_true_eq] at h
  simp only [Decimal.reach]
  omega

theorem literal_nan {x : Float} (h : Binary.infinity < magnitude x) :
    literal x = "f64::NAN".toList := by
  simp [literal, classify, h]

theorem literal_infinite {x : Float} (h : magnitude x = Binary.infinity) :
    literal x = if isNegative x then "f64::NEG_INFINITY".toList else "f64::INFINITY".toList := by
  cases hn : isNegative x <;> simp [literal, classify, h, hn]

theorem literal_finite {x : Float} (h : magnitude x < Binary.infinity) :
    literal x = if isNegative x then '(' :: number.finite x ++ [')'] else number.finite x := by
  have h₁ : ¬Binary.infinity < magnitude x := by omega
  have h₂ : magnitude x ≠ Binary.infinity := by omega
  cases hn : isNegative x <;> simp [literal, classify, h₁, h₂, hn]

theorem constant?_of_float {c : Char} {s : Text} (hc : c.isDigit = true ∨ c = '-')
    (h : float? (c :: s) = some x) : Program.Body.constant? (c :: s) = some x := by
  have hne : ∀ t : Text, t.head? = some 'f' → c :: s ≠ t := by
    intro t ht he
    rw [← he, List.head?_cons, Option.some.injEq] at ht
    subst ht
    rcases hc with hc | hc <;> cases hc
  have hhead : (c.isDigit || c = '-') = true := by
    rcases hc with hc | hc <;> simp [hc]
  unfold Program.Body.constant?
  rw [if_neg (hne _ rfl), if_neg (hne _ rfl), if_neg (hne _ rfl)]
  exact (if_pos hhead).trans h

/-- The literal of a float is read as that float. -/
theorem constant?_literal (x : Float) :
    Program.Body.constant? ((between ['('] [')'] (literal x)).getD (literal x)) = some x := by
  rcases Nat.lt_trichotomy (magnitude x) Binary.infinity with hfin | hinf | hnan
  · have hread := read_finite number_reach x hfin
    obtain ⟨c, s, hs, hc⟩ := startsNumber_decimal number (Decimal.shortest (magnitude x))
    rw [literal_finite hfin]
    unfold finite at hread ⊢
    rw [hs] at hread ⊢
    cases hn : isNegative x with
    | true =>
      rw [hn] at hread
      have hcut : between ['('] [')'] ('(' :: '-' :: c :: s ++ [')']) = some ('-' :: c :: s) :=
        between_append ['('] ('-' :: c :: s) [')']
      simp only [if_true, List.cons_append, List.nil_append] at hread hcut ⊢
      rw [hcut]
      exact constant?_of_float (.inr rfl) hread
    | false =>
      rw [hn] at hread
      simp only [Bool.false_eq_true, if_false, List.nil_append] at hread ⊢
      rw [between_of_head (ne_of_isDigit hc rfl)]
      exact constant?_of_float (.inl hc) hread
  · have hself := ofMagnitude_magnitude x
    rw [literal_infinite hinf]
    rw [hinf] at hself
    cases hn : isNegative x with
    | true =>
      rw [hn] at hself
      rw [← hself]
      rfl
    | false =>
      rw [hn] at hself
      rw [← hself]
      rfl
  · rw [literal_nan hnan, eq_nan_of_magnitude hnan]
    rfl


/-- The characters of numbers. -/
def isNumberChar (c : Char) : Bool :=
  c.isDigit || ['.', 'e', '-', '(', ')'].contains c

theorem isNumberChar_of_isDigit {c : Char} (h : c.isDigit = true) : isNumberChar c = true := by
  simp [isNumberChar, h]

theorem isBlank_of_isNumberChar {c : Char} (h : isNumberChar c = true) : isBlank c = false := by
  simp only [isNumberChar, Bool.or_eq_true, Char.isDigit_iff_toNat, List.contains_iff_mem,
    List.mem_cons, List.not_mem_nil, or_false] at h
  rcases h with h | rfl | rfl | rfl | rfl | rfl
  · simp [isBlank, blankRanges]
    grind
  all_goals rfl

theorem isNumberChar_decimal (layout : Layout) (d : Decimal) :
    ∀ c ∈ layout.decimal d, isNumberChar c = true := by
  have hdigits : ∀ n, ∀ c ∈ Nat.toDigits 10 n, isNumberChar c = true :=
    fun n c hc => isNumberChar_of_isDigit (digits_toDigits n c hc)
  have hzeros : ∀ n, ∀ c ∈ List.replicate n '0', isNumberChar c = true :=
    fun n c hc => isNumberChar_of_isDigit (digits_replicate n c hc)
  dsimp only [decimal]
  split
  · dsimp only [positional]
    split
    · refine List.forall_mem_append.mpr ⟨List.forall_mem_append.mpr ⟨hdigits _, hzeros _⟩, ?_⟩
      split
      · exact List.all_eq_true.mp rfl
      · nofun
    · split
      · exact List.forall_mem_append.mpr ⟨fun c hc => hdigits _ c (List.mem_of_mem_take hc),
          List.forall_mem_cons.mpr ⟨rfl, fun c hc => hdigits _ c (List.mem_of_mem_drop hc)⟩⟩
      · exact List.forall_mem_append.mpr ⟨List.forall_mem_cons.mpr ⟨rfl,
          List.forall_mem_cons.mpr ⟨rfl, hzeros _⟩⟩, hdigits _⟩
  · dsimp only [scientific]
    refine List.forall_mem_append.mpr ⟨List.forall_mem_append.mpr ⟨List.forall_mem_append.mpr
      ⟨fun c hc => hdigits _ c (List.mem_of_mem_take hc), ?_⟩, ?_⟩, hdigits _⟩
    · split
      · nofun
      · exact List.forall_mem_cons.mpr ⟨rfl, fun c hc => hdigits _ c (List.mem_of_mem_drop hc)⟩
    · refine List.forall_mem_cons.mpr ⟨rfl, ?_⟩
      split
      · exact List.all_eq_true.mp rfl
      · nofun

/-- The names of the constants without digits. -/
def constantNames : List Text :=
  ["f64::NAN".toList, "f64::INFINITY".toList, "f64::NEG_INFINITY".toList]

/-- A literal is a name, or it consists of the characters of numbers and starts with a digit or a
parenthesis. -/
theorem literal_cases (x : Float) :
    literal x ∈ constantNames ∨ (∀ c ∈ literal x, isNumberChar c = true) ∧
      ∃ c s, literal x = c :: s ∧ (c.isDigit = true ∨ c = '(') := by
  rcases Nat.lt_trichotomy (magnitude x) Binary.infinity with hfin | hinf | hnan
  · right
    have hchars := isNumberChar_decimal number (Decimal.shortest (magnitude x))
    obtain ⟨c, s, hs, hc⟩ := startsNumber_decimal number (Decimal.shortest (magnitude x))
    rw [literal_finite hfin, finite]
    rw [hs] at hchars ⊢
    cases hn : isNegative x with
    | true =>
      refine ⟨?_, '(', '-' :: c :: s ++ [')'], rfl, .inr rfl⟩
      exact List.forall_mem_append.mpr ⟨List.forall_mem_cons.mpr ⟨rfl,
        List.forall_mem_cons.mpr ⟨rfl, hchars⟩⟩, List.all_eq_true.mp rfl⟩
    | false => exact ⟨hchars, c, s, rfl, .inl hc⟩
  · left
    rw [literal_infinite hinf]
    cases isNegative x with
    | true => exact .tail _ (.tail _ (.head _))
    | false => exact .tail _ (.head _)
  · left
    rw [literal_nan hnan]
    exact .head _

end Listing

end FlatFourier
