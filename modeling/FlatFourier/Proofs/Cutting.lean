import Mathlib
import FlatFourier.Text

namespace FlatFourier.Text

variable {s t : Text}

theorem isPrefixOf?_append (p s : Text) : p.isPrefixOf? (p ++ s) = some s := by
  induction p with
  | nil => rfl
  | cons c p ih => simp [List.isPrefixOf?, ih]

theorem isPrefixOf?_eq_none {p : Text} (h : ¬p <+: s) : p.isPrefixOf? s = none := by
  induction p generalizing s with
  | nil => exact absurd List.nil_prefix h
  | cons c p ih =>
    cases s with
    | nil => rfl
    | cons d s =>
      by_cases hc : c = d
      · subst hc
        simp only [List.isPrefixOf?, beq_self_eq_true, if_true]
        exact ih fun hp => h (List.prefix_cons_inj c |>.mpr hp)
      · simp [List.isPrefixOf?, hc]

theorem isPrefixOf?_of_not_mem {c : Char} {p : Text} (hp : c ∈ p) (hs : c ∉ s) :
    p.isPrefixOf? s = none :=
  isPrefixOf?_eq_none fun h => hs (h.subset hp)

theorem isPrefixOf?_of_head {c d : Char} (h : c ≠ d) (p s : Text) :
    (c :: p).isPrefixOf? (d :: s) = none := by
  simp [List.isPrefixOf?, h]

theorem isSuffixOf?_append (s f : Text) : f.isSuffixOf? (s ++ f) = some s := by
  simp [List.isSuffixOf?, isPrefixOf?_append]

theorem between_append (start s finish : Text) :
    between start finish (start ++ s ++ finish) = some s := by
  rw [between, List.append_assoc, isPrefixOf?_append, Option.bind_some, isSuffixOf?_append]

theorem between_of_head {c d : Char} (h : c ≠ d) (start finish s : Text) :
    between (c :: start) finish (d :: s) = none := by
  rw [between, isPrefixOf?_of_head h, Option.bind_none]

/-- The first occurrence of a mark, whose first character does not stand before it. -/
theorem cut_append {m : Char} (h : m ∉ s) (mark rest : Text) :
    cut (m :: mark) (s ++ (m :: mark ++ rest)) = some (s, rest) := by
  induction s with
  | nil =>
    rw [List.nil_append, List.cons_append, cut, ← List.cons_append, isPrefixOf?_append]
  | cons c s ih =>
    have hc : m ≠ c := fun he => h (by simp [he])
    rw [List.cons_append, cut, isPrefixOf?_of_head hc, ih fun hm => h (by simp [hm])]
    rfl

/-- What has been cut makes up the text again, and the mark does not stand before its first
occurrence. -/
theorem cut_eq_some {mark before after : Text} (hm : mark ≠ [])
    (h : cut mark s = some (before, after)) :
    s = before ++ (mark ++ after) ∧ cut mark before = none := by
  have hnil : cut mark [] = none := if_neg (by simpa using hm)
  induction s generalizing before with
  | nil =>
    rw [hnil] at h
    cases h
  | cons c s ih =>
    rw [cut] at h
    split at h
    · rename_i rest hp
      cases h
      exact ⟨(List.append_eq_of_isPrefixOf?_eq_some hp).symm, hnil⟩
    · rename_i hp
      obtain ⟨parts, hparts, he⟩ := Option.map_eq_some_iff.mp h
      cases he
      obtain ⟨hs, hnone⟩ := ih hparts
      refine ⟨congrArg (c :: ·) hs, ?_⟩
      have hno : ¬mark <+: c :: parts.1 := by
        rintro ⟨rest, hr⟩
        have htext : c :: s = mark ++ (rest ++ (mark ++ parts.2)) := by
          rw [← List.append_assoc, hr, List.cons_append, ← hs]
        rw [htext, isPrefixOf?_append] at hp
        cases hp
      rw [cut, isPrefixOf?_eq_none hno, hnone]
      rfl

/-- A mark that is there is found. -/
theorem cut_append_ne_none (before mark after : Text) :
    cut mark (before ++ (mark ++ after)) ≠ none := by
  induction before with
  | nil =>
    rw [List.nil_append]
    cases hs : mark ++ after with
    | nil =>
      obtain ⟨rfl, rfl⟩ := List.append_eq_nil_iff.mp hs
      exact Option.some_ne_none _
    | cons c s =>
      rw [cut, ← hs, isPrefixOf?_append]
      exact Option.some_ne_none _
  | cons c before ih =>
    rw [List.cons_append, cut]
    split
    · exact Option.some_ne_none _
    · simpa using ih

theorem between_eq_some {start finish : Text} (h : between start finish s = some t) :
    s = start ++ t ++ finish := by
  obtain ⟨rest, hp, hf⟩ := Option.bind_eq_some_iff.mp h
  rw [← List.append_eq_of_isPrefixOf?_eq_some hp, ← List.append_eq_of_isSuffixOf?_eq_some hf,
    List.append_assoc]

/-- A text without blanks. -/
def Solid (s : Text) : Prop :=
  ∀ c ∈ s, isBlank c = false

theorem solid_of_all (h : s.all (!isBlank ·) = true) : Solid s := by
  simpa [Solid] using h

theorem words_of_solid (hs : Solid s) (hne : s ≠ []) : words s = [s] := by
  rw [words, List.splitOnP_eq_singleton hs]
  simp [hne]

theorem words_cons (hs : Solid s) (hne : s ≠ []) (t : Text) :
    words (s ++ ' ' :: t) = s :: words t := by
  rw [words, List.splitOnP_append_cons_of_forall_mem hs ' ' rfl, List.filter_cons]
  simp [hne, words]

theorem dropWhile_blank (h : ∀ c, s.head? = some c → isBlank c = false) :
    s.dropWhile isBlank = s := by
  cases s with
  | nil => rfl
  | cons c s => simp [List.dropWhile, h c rfl]

/-- A text whose ends are not blank is trimmed already. -/
theorem trim_eq (hh : ∀ c, s.head? = some c → isBlank c = false)
    (hl : ∀ c, s.getLast? = some c → isBlank c = false) : trim s = s := by
  rw [trim, trimStart, dropWhile_blank hh, trimEnd, dropWhile_blank, List.reverse_reverse]
  rwa [List.head?_reverse]

theorem trim_of_ends {c d : Char} (hh : s.head? = some c) (hc : isBlank c = false)
    (hl : s.getLast? = some d) (hd : isBlank d = false) : trim s = s := by
  refine trim_eq ?_ ?_
  · intro e he
    rwa [← Option.some.inj (hh.symm.trans he)]
  · intro e he
    rwa [← Option.some.inj (hl.symm.trans he)]

theorem trim_of_solid (hs : Solid s) : trim s = s :=
  trim_eq (fun c hc => hs c (List.mem_of_head? hc)) fun c hc => hs c (List.mem_of_getLast? hc)

theorem splitOn_lines (ls : List Text) (h : ∀ l ∈ ls, '\n' ∉ l) :
    (ls.flatMap (· ++ ['\n'])).splitOn '\n' = ls ++ [[]] := by
  induction ls with
  | nil => exact List.splitOn_nil _
  | cons l ls ih =>
    have hl := h l (by simp)
    rw [List.flatMap_cons, List.append_assoc, List.singleton_append,
      List.splitOn_append_cons_self_of_not_mem hl, ih fun m hm => h m (by simp [hm])]
    rfl

theorem lines_flatMap (ls : List Text) (h : ∀ l ∈ ls, '\n' ∉ l) :
    lines (ls.flatMap (· ++ ['\n'])) = ls := by
  simp [lines, splitOn_lines ls h]

/-- Decimal digits and nothing else. -/
def Digits (s : Text) : Prop :=
  ∀ c ∈ s, c.isDigit = true

/-- A text that a digit starts. -/
def StartsNumber (s : Text) : Prop :=
  ∃ c t, s = c :: t ∧ c.isDigit = true

/-- A text that no digit starts. -/
def EndsNumber (s : Text) : Prop :=
  ∀ c, s.head? = some c → c.isDigit = false

theorem digits_toDigits (n : Nat) : Digits (Nat.toDigits 10 n) :=
  fun _ hc => Nat.isDigit_of_mem_toDigits (by decide) (by decide) hc

theorem digits_replicate (n : Nat) : Digits (List.replicate n '0') := by
  intro c hc
  rw [(List.mem_replicate.mp hc).2]
  rfl

theorem Digits.append (hs : Digits s) (ht : Digits t) : Digits (s ++ t) := by
  intro c hc
  rcases List.mem_append.mp hc with hc | hc
  · exact hs c hc
  · exact ht c hc

theorem Digits.take (hs : Digits s) (k : Nat) : Digits (s.take k) :=
  fun c hc => hs c (List.mem_of_mem_take hc)

theorem Digits.drop (hs : Digits s) (k : Nat) : Digits (s.drop k) :=
  fun c hc => hs c (List.mem_of_mem_drop hc)

theorem numeral_toDigits (n : Nat) : numeral (Nat.toDigits 10 n) = n :=
  Nat.ofDigitChars_ten_toDigits

theorem isNumeral_toDigits (n : Nat) : isNumeral (Nat.toDigits 10 n) = true := by
  simp only [isNumeral, Bool.and_eq_true, List.all_eq_true]
  exact ⟨by simp [Nat.toDigits_ne_nil], digits_toDigits n⟩

theorem startsNumber_toDigits (n : Nat) : StartsNumber (Nat.toDigits 10 n) := by
  cases h : Nat.toDigits 10 n with
  | nil => exact absurd h Nat.toDigits_ne_nil
  | cons c s => exact ⟨c, s, rfl, digits_toDigits n c (by simp [h])⟩

theorem StartsNumber.append (hs : StartsNumber s) (t : Text) : StartsNumber (s ++ t) := by
  obtain ⟨c, s, rfl, hc⟩ := hs
  exact ⟨c, s ++ t, rfl, hc⟩

theorem StartsNumber.take (hs : StartsNumber s) (hk : 0 < k) : StartsNumber (s.take k) := by
  obtain ⟨c, s, rfl, hc⟩ := hs
  exact ⟨c, s.take (k - 1), List.take_cons hk, hc⟩

theorem ne_of_isDigit {c d : Char} (hc : c.isDigit = true) (hd : d.isDigit = false) : d ≠ c := by
  intro he
  rw [he, hc] at hd
  cases hd

theorem count?_toDigits {n : Nat} (h : n < countBound) : count? (Nat.toDigits 10 n) = some n := by
  obtain ⟨c, t, ht, hc⟩ := startsNumber_toDigits n
  have hplus : ['+'].isPrefixOf? (Nat.toDigits 10 n) = none := by
    rw [ht]
    exact isPrefixOf?_of_head (ne_of_isDigit hc rfl) _ _
  simp [count?, hplus, isNumeral_toDigits, numeral_toDigits, h]

end FlatFourier.Text
