import Mathlib
import FlatFourier.Proofs.FloatBits
import FlatFourier.Proofs.Scripts

namespace FlatFourier

open Build

theorem isOddInteger_iff (x : Float) :
    isOddInteger x = true ↔ ∃ n : ℤ, Odd n ∧ rational? x = some (n : ℚ) := by
  rw [rational?_eq, isOddInteger]
  cases classify x with
  | finite negative value =>
    simp only [Binary.isOddInteger_iff, Option.some.injEq]
    constructor
    · rintro ⟨n, hodd, hn⟩
      cases negative with
      | false => exact ⟨n, by exact_mod_cast hodd, by simpa using hn⟩
      | true => exact ⟨-n, by simpa using hodd, by simp [hn]⟩
    · rintro ⟨n, hodd, hn⟩
      have habs : |(n : ℚ)| = value.rational := by
        rw [← hn]
        cases negative with
        | false => exact abs_of_nonneg value.rational_nonneg
        | true => exact (abs_neg _).trans (abs_of_nonneg value.rational_nonneg)
      refine ⟨n.natAbs, Int.natAbs_odd.mpr hodd, ?_⟩
      rw [← habs, Nat.cast_natAbs, Int.cast_abs]
  | nan => simp
  | infinite negative => simp

/-- An angle that is, as far as floats can tell, an odd number of quarter turns. -/
def OddQuarters (angle : Float) : Prop :=
  ∃ n : ℤ, Odd n ∧ rational? (angle / 1.5707963267948966) = some (n : ℚ)

instance decidableOddQuarters (angle : Float) : Decidable (OddQuarters angle) :=
  decidable_of_iff _ (isOddInteger_iff (angle / 1.5707963267948966))

/-- The cosine of a constant is zero at the odd quarter turns and the cosine elsewhere. -/
theorem exactCos_eq (angle : Float) :
    exactCos angle = if OddQuarters angle then 0 else angle.cos := by
  have hquarter : quarterTurn = 1.5707963267948966 := rfl
  rw [exactCos, hquarter]
  exact if_congr (isOddInteger_iff _) rfl rfl

namespace Expr

def isNumber (x : Float) : Expr ι → Bool
  | const y => y = x
  | _ => false

/-- The constant zero, of either sign. -/
def isZero (e : Expr ι) : Bool :=
  e.isNumber 0 || e.isNumber (-0.0)

theorem weight_pos (e : Expr ι) : 0 < e.weight := by
  cases e with
  | binary op l r => cases op <;> simp [weight]
  | _ => simp [weight]

/-- What becomes of an operation. For each operator the first line that fits decides. -/
def tabled : Expr ι → Expr ι
  | binary .plus (const x) (const y) => const (x + y)
  | binary .plus l r =>
    if r.isZero then l
    else if l.isZero then r
    else match r with
      | binary .minus z y => if z.isZero then tabled (binary .minus l y) else binary .plus l r
      | _ => binary .plus l r
  | binary .minus (const x) (const y) => const (x - y)
  | binary .minus l r =>
    if r.isZero then l
    else match r with
      | binary .minus z y => if z.isZero then tabled (binary .plus l y) else binary .minus l r
      | _ => binary .minus l r
  | binary .times (const x) (const y) => const (x * y)
  | binary .times l r =>
    if r.isNumber 1 then l
    else if l.isNumber 1 then r
    else if l.isZero || r.isZero then const 0
    else if r.isNumber (-1) then tabled (binary .minus (const 0) l)
    else if l.isNumber (-1) then tabled (binary .minus (const 0) r)
    else binary .times l r
  | binary .div (const x) (const y) => const (x / y)
  | binary .div l r => if r.isNumber 1 then l else binary .div l r
  | unary .sin (const x) => const x.sin
  | unary .cos (const x) => const (if OddQuarters x then 0 else x.cos)
  | e => e
termination_by e => e.weight
decreasing_by
  all_goals
    have hl := l.weight_pos
    have hr := r.weight_pos
    simp only [weight] at *
    omega

theorem isConstant_eq_isNumber (hx : ∀ {y : Float}, (y == x) = true → y = x)
    (hself : (x == x) = true) (e : Expr ι) : e.isConstant x = e.isNumber x := by
  cases e with
  | const y =>
    rw [Bool.eq_iff_iff, isNumber, decide_eq_true_iff]
    exact ⟨hx, fun h => h ▸ hself⟩
  | _ => rfl

theorem isConstant_one (e : Expr ι) : e.isConstant 1 = e.isNumber 1 :=
  isConstant_eq_isNumber eq_one_of_beq rfl e

theorem isConstant_negOne (e : Expr ι) : e.isConstant (-1) = e.isNumber (-1) :=
  isConstant_eq_isNumber eq_neg_one_of_beq rfl e

theorem isConstant_zero (e : Expr ι) : e.isConstant 0 = e.isZero := by
  cases e with
  | const x =>
    rw [Bool.eq_iff_iff, isZero, isNumber, isNumber, Bool.or_eq_true, decide_eq_true_iff,
      decide_eq_true_iff]
    refine ⟨eq_zero_of_beq, ?_⟩
    rintro (rfl | rfl) <;> rfl
  | _ => rfl

theorem negated?_minus (z y : Expr ι) :
    (binary .minus z y).negated? = if z.isZero then some y else none := by
  rw [negated?, isConstant_zero]

theorem negated?_eq_none {e : Expr ι} (h : ∀ z y, e = binary .minus z y → False) :
    e.negated? = none := by
  unfold negated?
  split
  · exact (h _ _ rfl).elim
  · rfl

end Expr

namespace Rule

variable {l r : Expr ι} {op : BinaryOp}

theorem first_of_not_folded (h : ∀ x y, l = .const x → r = .const y → False) :
    firstRewrite? standard (.binary op l r) =
      firstRewrite? [identity, absorb, negationFold] (.binary op l r) := by
  have hnone : constantFold.rewrite? (.binary op l r) = none := by
    unfold rewrite?
    split <;> first | rfl | simp_all
  rw [firstRewrite?, standard, List.findSome?_cons, hnone]
  rfl

theorem first_plus (h : ∀ x y, l = .const x → r = .const y → False) :
    firstRewrite? standard (.binary .plus l r) =
      if r.isZero then some (identity, .done l)
      else if l.isZero then some (identity, .done r)
      else r.negated?.map fun y => (negationFold, .again .minus l y) := by
  rw [first_of_not_folded h]
  simp only [firstRewrite?, List.findSome?_cons, List.findSome?_nil, rewrite?,
    Expr.isConstant_zero]
  split_ifs
  · rfl
  · rfl
  · cases r.negated? <;> rfl

theorem first_minus (h : ∀ x y, l = .const x → r = .const y → False) :
    firstRewrite? standard (.binary .minus l r) =
      if r.isZero then some (identity, .done l)
      else r.negated?.map fun y => (negationFold, .again .plus l y) := by
  rw [first_of_not_folded h]
  simp only [firstRewrite?, List.findSome?_cons, List.findSome?_nil, rewrite?,
    Expr.isConstant_zero]
  split_ifs
  · rfl
  · cases r.negated? <;> rfl

theorem first_times (h : ∀ x y, l = .const x → r = .const y → False) :
    firstRewrite? standard (.binary .times l r) =
      if r.isNumber 1 then some (identity, .done l)
      else if l.isNumber 1 then some (identity, .done r)
      else if l.isZero || r.isZero then some (absorb, .done (.const 0))
      else if r.isNumber (-1) then some (negationFold, .again .minus (.const 0) l)
      else if l.isNumber (-1) then some (negationFold, .again .minus (.const 0) r)
      else none := by
  rw [first_of_not_folded h]
  simp only [firstRewrite?, List.findSome?_cons, List.findSome?_nil, rewrite?,
    Expr.isConstant_zero, Expr.isConstant_one, Expr.isConstant_negOne, Bool.or_eq_true]
  split_ifs <;> simp_all

theorem first_div (h : ∀ x y, l = .const x → r = .const y → False) :
    firstRewrite? standard (.binary .div l r) =
      if r.isNumber 1 then some (identity, .done l) else none := by
  rw [first_of_not_folded h]
  simp only [firstRewrite?, List.findSome?_cons, List.findSome?_nil, rewrite?,
    Expr.isConstant_one]
  split_ifs <;> rfl

end Rule

namespace Expr

open Rule in
/-- The standard rules make of an operation what the table says. -/
theorem simplify_standard (e : Expr ι) : e.simplify Rule.standard = e.tabled := by
  -- Along the recursion of the table: where a line asks again, so does the rule behind it.
  fun_induction tabled e with
  | case1 x y => exact simplify_fold (f := .binary .plus x y) rfl
  | case2 l r h hr => exact simplify_done (by rw [first_plus h, if_pos hr])
  | case3 l r h hr hl => exact simplify_done (by rw [first_plus h, if_neg hr, if_pos hl])
  | case4 l hl z y hz h hr ih =>
    have hfirst := first_plus h
    rw [if_neg hr, if_neg hl, negated?_minus, if_pos hz] at hfirst
    exact (simplify_again hfirst).trans ih
  | case5 l hl z y hz h hr =>
    have hfirst := first_plus h
    rw [if_neg hr, if_neg hl, negated?_minus, if_neg hz] at hfirst
    exact simplify_none hfirst
  | case6 l r h hr hl hn =>
    have hfirst := first_plus h
    rw [if_neg hr, if_neg hl, negated?_eq_none hn] at hfirst
    exact simplify_none hfirst
  | case7 x y => exact simplify_fold (f := .binary .minus x y) rfl
  | case8 l r h hr => exact simplify_done (by rw [first_minus h, if_pos hr])
  | case9 l z y hz h hr ih =>
    have hfirst := first_minus h
    rw [if_neg hr, negated?_minus, if_pos hz] at hfirst
    exact (simplify_again hfirst).trans ih
  | case10 l z y hz h hr =>
    have hfirst := first_minus h
    rw [if_neg hr, negated?_minus, if_neg hz] at hfirst
    exact simplify_none hfirst
  | case11 l r h hr hn =>
    have hfirst := first_minus h
    rw [if_neg hr, negated?_eq_none hn] at hfirst
    exact simplify_none hfirst
  | case12 x y => exact simplify_fold (f := .binary .times x y) rfl
  | case13 l r h hr => exact simplify_done (by rw [first_times h, if_pos hr])
  | case14 l r h hr hl => exact simplify_done (by rw [first_times h, if_neg hr, if_pos hl])
  | case15 l r h hr hl hz =>
    exact simplify_done (by rw [first_times h, if_neg hr, if_neg hl, if_pos hz])
  | case16 l r h hr hl hz hneg ih =>
    have hfirst := first_times h
    rw [if_neg hr, if_neg hl, if_neg hz, if_pos hneg] at hfirst
    exact (simplify_again hfirst).trans ih
  | case17 l r h hr hl hz hr' hneg ih =>
    have hfirst := first_times h
    rw [if_neg hr, if_neg hl, if_neg hz, if_neg hr', if_pos hneg] at hfirst
    exact (simplify_again hfirst).trans ih
  | case18 l r h hr hl hz hr' hl' =>
    have hfirst := first_times h
    rw [if_neg hr, if_neg hl, if_neg hz, if_neg hr', if_neg hl'] at hfirst
    exact simplify_none hfirst
  | case19 x y => exact simplify_fold (f := .binary .div x y) rfl
  | case20 l r h hr => exact simplify_done (by rw [first_div h, if_pos hr])
  | case21 l r h hr => exact simplify_none (by rw [first_div h, if_neg hr])
  | case22 x => exact simplify_fold (f := .unary .sin x) rfl
  | case23 x =>
    rw [← exactCos_eq]
    exact simplify_fold (f := .unary .cos x) rfl
  | case24 e =>
    cases e with
    | binary op l r => cases op <;> simp_all
    | unary op a =>
      cases a with
      | const x => cases op <;> simp_all
      | _ => exact simplify_none rfl
    | _ => exact simplify_none rfl

end Expr

/-- A builder with the standard rules, whatever has happened to it. -/
def Builder.Standard (b : Builder) : Prop :=
  ∃ options events, b = (Builder.withRules options Rule.standard).after events

theorem Builder.Standard.rules {b : Builder} (h : b.Standard) : b.rules = Rule.standard := by
  obtain ⟨options, events, rfl⟩ := h
  exact (settings_after options Rule.standard events).2

theorem Builder.Standard.consistent {b : Builder} (h : b.Standard) : b.graph.Consistent := by
  obtain ⟨options, events, rfl⟩ := h
  exact consistent_after options Rule.standard events

/-- With the standard rules, an operation over nodes of an ordered graph is built, and its node has
the tree that the table makes of the operation's tree. -/
theorem operation_tabled {b : Builder} (hb : b.Standard) (ho : b.graph.Ordered) (label : Node → ι)
    (kind : Kind) (hkind : kind.IsArithmetic) (hbelow : kind.Below b.graph.size) :
    ∃ e, Spells label b.graph kind e ∧ Yields (operation kind) b fun i b' =>
      b.graph.Keeps b'.graph ∧ Unfolds label b'.graph i e.tabled := by
  have hsound : b.graph.Sound := ⟨hb.consistent, ho⟩
  obtain ⟨e, he⟩ := Spells.exists_of_ordered ho label hkind hbelow
  refine ⟨e, he, (operation_yields hsound (.refl b) he).mono ?_⟩
  rintro i b' ⟨_, hkeeps, hu⟩
  rw [hb.rules, Expr.simplify_standard] at hu
  exact ⟨hkeeps, hu⟩

/-- What is read is subtracted from minus zero, as a difference that no rule has seen. -/
def negatedRead : Builder :=
  (Builder.withRules ⟨false, true⟩ Rule.standard).after
    ([.declare "data" 1, .read 0 0, .lift (-0.0), .make (.binary .minus 1 0), .lift (-1)].map
      Event.call)

theorem list_negatedRead : negatedRead.graph.list = [⟨0, .read 0 0 0, none⟩,
    ⟨1, .const (-0.0), none⟩, ⟨2, .binary .minus 1 0, none⟩, ⟨3, .const (-1), none⟩] := by
  decide +kernel

/-- A product with minus one turns into a difference, then into a sum, and then into what is
read. -/
theorem tabled_negatedRead (x : ι) :
    (.binary .times (.binary .minus (.const (-0.0)) (.leaf x)) (.const (-1)) : Expr ι).tabled =
      .leaf x := by
  have hone : ¬(-1 : Float) = 1 := by decide
  have hzero : ¬((-1 : Float) = 0 ∨ (-1 : Float) = -0.0) := by decide
  simp [Expr.tabled, Expr.isZero, Expr.isNumber, hone, hzero]

theorem operation_tabled_negatedRead :
    Yields (operation (.binary .times 2 3)) negatedRead fun i b' =>
      negatedRead.graph.Keeps b'.graph ∧ Unfolds Node.kind b'.graph i (.leaf (.read 0 0 0)) := by
  have hstandard : negatedRead.Standard := ⟨_, _, rfl⟩
  have hordered : negatedRead.graph.Ordered := by
    apply hstandard.consistent.ordered_of_list
    rw [list_negatedRead]
    decide
  have hbelow : (Kind.binary .times 2 3).Below negatedRead.graph.size := by
    rw [(by decide : negatedRead.graph.size = 4)]
    exact (by decide : ∀ a ∈ [2, 3], a < 4)
  obtain ⟨e, he, hyields⟩ :=
    operation_tabled hstandard hordered Node.kind (.binary .times 2 3) trivial hbelow
  have hnode : ∀ (i : Nat) n, negatedRead.graph.list[i]? = some n →
      negatedRead.graph.node? i = some n := fun i n hn => (Graph.node?_eq _ i).trans hn
  rw [list_negatedRead] at hnode
  have htwo : Unfolds Node.kind negatedRead.graph 2
      (.binary .minus (.const (-0.0)) (.leaf (.read 0 0 0))) :=
    .binary (hnode 2 _ rfl) rfl (.const (hnode 1 _ rfl) rfl) (.leaf (hnode 0 _ rfl) rfl)
  have hthree : Unfolds Node.kind negatedRead.graph 3 (.const (-1)) := .const (hnode 3 _ rfl) rfl
  cases he with
  | binary _ hl hr =>
    rwa [hl.unique htwo, hr.unique hthree, tabled_negatedRead] at hyields

end FlatFourier
