import Mathlib
import FlatFourier.Proofs.FloatBits
import FlatFourier.Proofs.Values

namespace FlatFourier

/-- An interpretation in a ring, whose constants give the special numbers of the rules their values.
Quotients, sines and cosines may be anything. -/
structure Interpretation.IsExact [CommRing R] (I : Interpretation R) : Prop where
  plus : ∀ x y, I.binary .plus x y = x + y
  minus : ∀ x y, I.binary .minus x y = x - y
  times : ∀ x y, I.binary .times x y = x * y
  zero : I.constant 0 = 0
  negZero : I.constant (-0.0) = 0
  one : I.constant 1 = 1
  negOne : I.constant (-1) = -1

/-- The constant that replaces an operation has its value. -/
def Fold.Respected (I : Interpretation α) : Fold → Prop
  | .binary op x y => I.constant (op.apply x y) = I.binary op (I.constant x) (I.constant y)
  | .unary op x => I.constant (op.fold x) = I.unary op (I.constant x)

namespace Expr

/-- Whether the tree is a quotient. That a divisor of one may be dropped is no law of a ring. -/
def isQuotient : Expr ι → Bool
  | binary .div _ _ => true
  | _ => false

section Exact

variable [CommRing R] {I : Interpretation R} {known : ι → R}

theorem eval_of_isConstant_zero (hI : I.IsExact) {e : Expr ι} (h : e.isConstant 0 = true) :
    e.eval I known = 0 := by
  obtain ⟨x, rfl, hx⟩ := eq_const_of_isConstant h
  rcases eq_zero_of_beq hx with rfl | rfl
  · exact hI.zero
  · exact hI.negZero

theorem eval_of_isConstant_one (hI : I.IsExact) {e : Expr ι} (h : e.isConstant 1 = true) :
    e.eval I known = 1 := by
  obtain ⟨x, rfl, hx⟩ := eq_const_of_isConstant h
  rw [eq_one_of_beq hx]
  exact hI.one

theorem eval_of_isConstant_neg_one (hI : I.IsExact) {e : Expr ι} (h : e.isConstant (-1) = true) :
    e.eval I known = -1 := by
  obtain ⟨x, rfl, hx⟩ := eq_const_of_isConstant h
  rw [eq_neg_one_of_beq hx]
  exact hI.negOne

theorem eval_of_negated? (hI : I.IsExact) {e : Expr ι} (h : e.negated? = some y) :
    e.eval I known = -y.eval I known := by
  obtain ⟨x, rfl, hx⟩ := eq_minus_of_negated? h
  have hzero : (const x : Expr ι).eval I known = 0 :=
    eval_of_isConstant_zero hI (by simpa [isConstant, constant?] using hx)
  rw [eval, hI.minus, hzero, zero_sub]

/-- One rule changes no value. -/
theorem eval_rewrite (hI : I.IsExact) {rule : Rule} {e : Expr ι} (h : rule.rewrite? e = some w)
    (hq : e.isQuotient = true → ∀ x, I.binary .div x 1 = x)
    (hf : ∀ f, w.fold? = some f → f.Respected I) :
    w.tree.eval I known = e.eval I known := by
  unfold Rule.rewrite? at h
  split at h
  · cases h
    exact hf _ rfl
  · cases h
    exact hf _ rfl
  · split_ifs at h with hr hl <;> cases h
    · simp only [Rewrite.tree, eval, hI.plus, eval_of_isConstant_zero hI hr, add_zero]
    · simp only [Rewrite.tree, eval, hI.plus, eval_of_isConstant_zero hI hl, zero_add]
  · split_ifs at h with hr
    cases h
    simp only [Rewrite.tree, eval, hI.minus, eval_of_isConstant_zero hI hr, sub_zero]
  · split_ifs at h with hr hl <;> cases h
    · simp only [Rewrite.tree, eval, hI.times, eval_of_isConstant_one hI hr, mul_one]
    · simp only [Rewrite.tree, eval, hI.times, eval_of_isConstant_one hI hl, one_mul]
  · split_ifs at h with hr
    cases h
    simp only [Rewrite.tree, eval, eval_of_isConstant_one hI hr, hq rfl]
  · split_ifs at h with hl hr <;> cases h
    · simp only [Rewrite.tree, eval, hI.times, hI.zero, eval_of_isConstant_zero hI hl, zero_mul]
    · simp only [Rewrite.tree, eval, hI.times, hI.zero, eval_of_isConstant_zero hI hr, mul_zero]
  · obtain ⟨y, hy, he⟩ := Option.map_eq_some_iff.mp h
    cases he
    simp only [Rewrite.tree, eval, hI.minus, hI.plus, eval_of_negated? hI hy, sub_eq_add_neg]
  · obtain ⟨y, hy, he⟩ := Option.map_eq_some_iff.mp h
    cases he
    simp only [Rewrite.tree, eval, hI.minus, hI.plus, eval_of_negated? hI hy, sub_neg_eq_add]
  · split_ifs at h with hr hl <;> cases h
    · simp only [Rewrite.tree, eval, hI.minus, hI.times, hI.zero, zero_sub,
        eval_of_isConstant_neg_one hI hr, mul_neg_one]
    · simp only [Rewrite.tree, eval, hI.minus, hI.times, hI.zero, zero_sub,
        eval_of_isConstant_neg_one hI hl, neg_one_mul]
  · cases h

/-- The rules change no value. -/
theorem eval_simplify (hI : I.IsExact) {rules : List Rule} {e : Expr ι}
    (hq : e.isQuotient = true → ∀ x, I.binary .div x 1 = x)
    (hf : ∀ f ∈ e.folds rules, f.Respected I) :
    (e.simplify rules).eval I known = e.eval I known := by
  induction hn : e.weight using Nat.strongRecOn generalizing e with
  | ind n ih =>
    cases hw : Rule.firstRewrite? rules e with
    | none => rw [simplify_none hw]
    | some first =>
      obtain ⟨rule, w⟩ := first
      obtain ⟨_, hrule⟩ := Rule.rewrite?_of_first hw
      have hstep : _ → w.tree.eval I known = e.eval I known := eval_rewrite hI hrule hq
      cases w with
      | fold f =>
        rw [simplify_fold hw]
        refine hstep ?_
        intro f' he
        cases he
        exact hf f (by simp [folds, rewrites_fold hw, Rewrite.fold?])
      | done e' =>
        rw [simplify_done hw]
        exact hstep fun f hf' => by cases hf'
      | again op l r =>
        subst hn
        rw [simplify_again hw, ← hstep fun f hf' => by cases hf']
        refine ih _ (Rule.weight_lt_of_again hrule) ?_ ?_ rfl
        · intro hquot
          rcases Rule.rewrite?_again hrule with ⟨_, _, rfl, _⟩ | ⟨_, _, rfl, _⟩ | ⟨_, _, rfl, _⟩
          all_goals cases hquot
        · rwa [folds_again hw] at hf

end Exact

theorem rewrite?_fold {rule : Rule} {e : Expr ι} (h : rule.rewrite? e = some (.fold f)) :
    rule = .constantFold := by
  unfold Rule.rewrite? at h
  split at h
  · rfl
  · rfl
  all_goals try split_ifs at h
  all_goals try cases h
  -- what is left are the negations
  all_goals
    obtain ⟨y, _, hy⟩ := Option.map_eq_some_iff.mp h
    cases hy

/-- Without the rule for it nothing is folded. -/
theorem folds_of_not_mem {rules : List Rule} (h : Rule.constantFold ∉ rules) (e : Expr ι) :
    e.folds rules = [] := by
  induction hn : e.weight using Nat.strongRecOn generalizing e with
  | ind n ih =>
    cases hw : Rule.firstRewrite? rules e with
    | none => rw [folds, rewrites_none hw, List.filterMap_nil]
    | some first =>
      obtain ⟨rule, w⟩ := first
      obtain ⟨hmem, hrule⟩ := Rule.rewrite?_of_first hw
      cases w with
      | fold f => exact absurd (rewrite?_fold hrule ▸ hmem) h
      | done e' =>
        rw [folds, rewrites_done hw]
        rfl
      | again op l r =>
        subst hn
        rw [folds_again hw]
        exact ih _ (Rule.weight_lt_of_again hrule) _ rfl

end Expr

namespace Demand

theorem isQuotient_butterfly {A : Arithmetic (Expr ι)} {x y : Point (Expr ι)}
    (h : d ∈ butterfly A n k x y) : d.tree.isQuotient = false := by
  simp only [butterfly, polar, mul, parts, List.mem_append, List.mem_cons, List.not_mem_nil,
    or_false] at h
  rcases h with (((rfl | rfl) | rfl | rfl | rfl | rfl | rfl | rfl) | rfl | rfl) | rfl | rfl
  all_goals rfl

/-- A transform asks for no quotient. -/
theorem isQuotient_transform {A : Arithmetic (Expr ι)} {s : Nat → Point (Expr ι)}
    (h : d ∈ transform A n s) : d.tree.isQuotient = false := by
  fun_induction transform A n s with
  | case1 => cases h
  | case2 n s hn even odd ihe iho =>
    rcases List.mem_append.mp h with h | h
    · rcases List.mem_append.mp h with h | h
      · exact ihe h
      · exact iho h
    · obtain ⟨k, _, hk⟩ := List.mem_flatMap.mp h
      exact isQuotient_butterfly hk

end Demand

/-- In a ring the rules are harmless for a transform. -/
theorem Interpretation.IsExact.harmless [CommRing R] {I : Interpretation R} (hI : I.IsExact)
    {rules : List Rule} {s : Nat → Point (Expr ι)}
    (hf : ∀ d ∈ Demand.transform (Expr.arithmetic rules) n s, ∀ f ∈ d.tree.folds rules,
      f.Respected I) (known : ι → R) :
    Expr.Harmless I known rules (Demand.transform (Expr.arithmetic rules) n s) := by
  intro d hd
  refine Expr.eval_simplify hI ?_ (hf d hd)
  intro hq
  rw [Demand.isQuotient_transform hd] at hq
  cases hq

end FlatFourier
