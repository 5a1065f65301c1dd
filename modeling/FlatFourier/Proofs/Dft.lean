import Mathlib
import FlatFourier.Proofs.Calls
import FlatFourier.Proofs.RingRules
import FlatFourier.Proofs.Staging

namespace FlatFourier

open Finset (range)

/-- Point `k` of the discrete Fourier transform of the first `n` points of a signal. -/
def dft [CommRing C] (w : C) (n : Nat) (x : Nat → C) (k : Nat) : C :=
  ∑ j ∈ range n, x j * w ^ (j * k)

section Dft

variable [CommRing C] {w : C}

theorem sum_even_odd (f : Nat → C) (h : Nat) :
    ∑ j ∈ range (2 * h), f j = ∑ i ∈ range h, f (2 * i) + ∑ i ∈ range h, f (2 * i + 1) := by
  induction h with
  | zero => simp
  | succ h ih =>
    rw [Nat.mul_succ, Finset.sum_range_succ, Finset.sum_range_succ, ih, Finset.sum_range_succ,
      Finset.sum_range_succ]
    ring

/-- The transforms of the points at even and at odd places, with the square of the root. -/
theorem dft_double (w : C) (h : Nat) (x : Nat → C) (k : Nat) :
    dft w (2 * h) x k = dft (w ^ 2) h (fun i => x (2 * i)) k +
      w ^ k * dft (w ^ 2) h (fun i => x (2 * i + 1)) k := by
  unfold dft
  rw [sum_even_odd, Finset.mul_sum]
  congr 1
  · apply Finset.sum_congr rfl
    intro i _
    rw [← pow_mul, Nat.mul_assoc]
  · apply Finset.sum_congr rfl
    intro i _
    ring

/-- The transform has the period of its root. -/
theorem dft_period (hw : w ^ h = 1) (x : Nat → C) (k : Nat) : dft w h x (h + k) = dft w h x k := by
  apply Finset.sum_congr rfl
  intro j _
  rw [Nat.mul_add, pow_add, Nat.mul_comm j h, pow_mul, hw, one_pow, one_mul]

/-- Point `k` of the second half. -/
theorem dft_lower (hw : w ^ h = -1) (x : Nat → C) (k : Nat) :
    dft w (2 * h) x (h + k) = dft (w ^ 2) h (fun i => x (2 * i)) k -
      w ^ k * dft (w ^ 2) h (fun i => x (2 * i + 1)) k := by
  have hone : (w ^ 2) ^ h = 1 := by
    rw [← pow_mul, Nat.mul_comm, pow_mul, hw, neg_one_sq]
  rw [dft_double, dft_period hone, dft_period hone, pow_add, hw]
  ring

end Dft

/-- A pair as a complex number over a ring. -/
def Point.complex [CommRing R] (p : Point R) : QuadraticAlgebra R (-1) 0 :=
  ⟨p.re, p.im⟩

namespace Interpretation.IsExact

variable [CommRing R] {I : Interpretation R}

theorem complex_add (hI : I.IsExact) (p q : Point R) :
    (I.arithmetic.add p q).complex = p.complex + q.complex := by
  ext
  · exact hI.plus _ _
  · exact hI.plus _ _

theorem complex_sub (hI : I.IsExact) (p q : Point R) :
    (I.arithmetic.sub p q).complex = p.complex - q.complex := by
  ext
  · exact hI.minus _ _
  · exact hI.minus _ _

theorem complex_mul (hI : I.IsExact) (p q : Point R) :
    (I.arithmetic.mul p q).complex = p.complex * q.complex := by
  ext
  · simp [Point.complex, Arithmetic.mul, arithmetic, hI.minus, hI.times]
    ring
  · simp [Point.complex, Arithmetic.mul, arithmetic, hI.plus, hI.times]

/-- The radix-2 scheme computes the discrete Fourier transform, if the twiddle factors are powers of
one root. -/
theorem transform_eq_dft (hI : I.IsExact) (depth : Nat) {w : QuadraticAlgebra R (-1) 0}
    (hw : 0 < depth → w ^ Nat.pow 2 (depth - 1) = -1)
    (ht : ∀ n k, n ∣ Nat.pow 2 depth → k < n / 2 →
      (I.arithmetic.polar (Fourier.angle k n)).complex = w ^ (k * (Nat.pow 2 depth / n)))
    (x : Nat → Point R) (hk : k < Nat.pow 2 depth) :
    (I.arithmetic.transform (Nat.pow 2 depth) x k).complex =
      dft w (Nat.pow 2 depth) (fun j => (x j).complex) k := by
  induction depth generalizing w x k with
  | zero =>
    have hone : Nat.pow 2 0 = 1 := rfl
    obtain rfl : k = 0 := by omega
    rw [hone, Arithmetic.transform_one]
    simp [dft]
  | succ depth ih =>
    have hdouble : Nat.pow 2 (depth + 1) = 2 * Nat.pow 2 depth := Nat.mul_comm _ _
    have hroot : w ^ Nat.pow 2 depth = -1 := hw (Nat.succ_pos _)
    have hroot' : 0 < depth → (w ^ 2) ^ Nat.pow 2 (depth - 1) = -1 := by
      intro hd
      cases depth with
      | zero => exact absurd hd (Nat.lt_irrefl 0)
      | succ d =>
        rw [Nat.add_sub_cancel, ← pow_mul, Nat.mul_comm]
        exact hroot
    generalize Nat.pow 2 depth = h at *
    rw [hdouble] at ht hk ⊢
    have ht' : ∀ n k, n ∣ h → k < n / 2 →
        (I.arithmetic.polar (Fourier.angle k n)).complex = (w ^ 2) ^ (k * (h / n)) := by
      intro n k hn hkn
      rw [ht n k (Dvd.dvd.mul_left hn 2) hkn, Nat.mul_div_assoc 2 hn, ← pow_mul]
      congr 1
      ring
    have htwiddle : ∀ j, j < h →
        (I.arithmetic.polar (Fourier.angle j (2 * h))).complex = w ^ j := by
      intro j hj
      have := ht (2 * h) j dvd_rfl (by omega)
      rwa [Nat.div_self (by omega), Nat.mul_one] at this
    by_cases hlt : k < h
    · rw [Arithmetic.transform_upper _ _ hlt, hI.complex_add, hI.complex_mul, htwiddle k hlt,
        ih hroot' ht' _ hlt, ih hroot' ht' _ hlt, dft_double]
    · obtain ⟨j, rfl⟩ := Nat.exists_eq_add_of_le (Nat.le_of_not_lt hlt)
      have hj : j < h := by omega
      rw [Arithmetic.transform_lower _ _ hj, hI.complex_sub, hI.complex_mul, htwiddle j hj,
        ih hroot' ht' _ hj, ih hroot' ht' _ hj, dft_lower hroot]

end Interpretation.IsExact

/-- A transform asks for the twiddle factors of all its stages. -/
theorem Demand.polar_subset (A : Arithmetic α) (depth : Nat) (s : Nat → Point α)
    (hn : n ∣ Nat.pow 2 depth) (hk : k < n / 2) :
    polar (Fourier.angle k n) ⊆ transform A (Nat.pow 2 depth) s := by
  induction depth generalizing s with
  | zero =>
    have hone : n = 1 := Nat.dvd_one.mp hn
    omega
  | succ depth ih =>
    have hdouble : Nat.pow 2 (depth + 1) = 2 * Nat.pow 2 depth := Nat.mul_comm _ _
    have hpos : 0 < Nat.pow 2 depth := Nat.pow_pos (by omega)
    obtain ⟨m, hm, rfl⟩ := (Nat.dvd_prime_pow Nat.prime_two).mp hn
    rw [hdouble, transform_double _ _ hpos]
    rcases Nat.lt_or_eq_of_le hm with hlt | rfl
    · have hsub := ih (fun i => s (2 * i)) (Nat.pow_dvd_pow 2 (Nat.le_of_lt_succ hlt))
      intro d hd
      exact List.mem_append_left _ (List.mem_append_left _ (hsub hd))
    · have hstage : 2 ^ (depth + 1) = 2 * Nat.pow 2 depth := hdouble
      rw [hstage] at hk ⊢
      intro d hd
      refine List.mem_append_right _ (List.mem_flatMap.mpr ⟨k, List.mem_range.mpr (by omega), ?_⟩)
      simp only [butterfly, List.mem_append]
      exact .inl (.inl (.inl hd))

namespace Fourier

variable [CommRing R] {b : Builder} {I : Interpretation R}

/-- Where the rules are harmless, the nodes of a twiddle factor have its value. -/
theorem polar_point {I : Interpretation α} (hb : b.graph.Sound) {values : NodeId → α}
    (h : Expr.Harmless I values b.rules (Demand.polar θ)) {z : Sample}
    (hz : Sample.polar θ b = .ok z b₁) (hr : b₁.graph.Respects I values) :
    z.point values = I.arithmetic.polar θ := by
  obtain ⟨z', b', hz', hp, _, hu⟩ := Sample.polar_yields Node.id hb (.refl b) θ
  cases hz.symm.trans hz'
  rw [hu.value hr ((hp.grows.sound hb).values_id values)]
  exact Expr.eval_polar h

/-- The nodes of a twiddle factor have the value of its tree. -/
theorem polar_value (hb : b.graph.Sound) (angle : Float) (known : NodeId → R)
    (h : ∀ z b₁ values, Sample.polar angle b = .ok z b₁ → b₁.graph.Respects I values →
      (z.point values).complex = v) :
    (((Expr.arithmetic b.rules).polar angle).map (Expr.eval I known)).complex = v := by
  obtain ⟨z, b₁, hz, hp, _, hu⟩ := Sample.polar_yields Node.id hb (.refl b) angle
  have hsound := hp.grows.sound hb
  obtain ⟨values, hr, hk⟩ := hsound.ordered.exists_respects I Node.id known
  rw [← hu.value hr hk]
  exact h z b₁ values hz hr

/-- The trees of a transform have the values of the discrete Fourier transform. -/
theorem eval_transform_eq_dft (hI : I.IsExact) {known : ι → R} {rules : List Rule}
    {s : Nat → Point (Expr ι)} (hp : isPowerOfTwo n = true)
    (h : Expr.Harmless I known rules (Demand.transform (Expr.arithmetic rules) n s))
    {w : QuadraticAlgebra R (-1) 0} (hw : 1 < n → w ^ (n / 2) = -1)
    (ht : ∀ m k, m ∣ n → k < m / 2 →
      (((Expr.arithmetic rules).polar (angle k m)).map (Expr.eval I known)).complex =
        w ^ (k * (n / m)))
    (hk : k < n) :
    (((Expr.arithmetic rules).transform n s k).map (Expr.eval I known)).complex =
      dft w n (fun j => ((s j).map (Expr.eval I known)).complex) k := by
  obtain ⟨depth, rfl⟩ : ∃ depth, n = Nat.pow 2 depth := ⟨_, length_of_isPowerOfTwo hp⟩
  rw [Expr.eval_transform depth h hk]
  refine hI.transform_eq_dft depth ?_ ?_ _ hk
  · intro hd
    cases depth with
    | zero => exact absurd hd (Nat.lt_irrefl 0)
    | succ d =>
      have hpos : 0 < Nat.pow 2 d := Nat.pow_pos (by omega)
      have hdouble : Nat.pow 2 (d + 1) = 2 * Nat.pow 2 d := Nat.mul_comm _ _
      rw [hdouble, Nat.mul_div_cancel_left _ (by omega)] at hw
      exact hw (by omega)
  · intro m j hm hj
    rw [← ht m j hm hj, Expr.eval_polar]
    exact fun d hd => h d (Demand.polar_subset _ depth s hm hj hd)

/-- In exact arithmetic the builder's transform computes the discrete Fourier transform. The rules
may be any, as long as the constants of all folded operations have their values, and so may what is
read and written. -/
theorem transform_sums (hb : Reachable b) (ho : b.graph.Ordered)
    (hx : ∀ i : Nat, i ∈ xs.flatMap Sample.nodes → i < b.graph.size)
    (hp : isPowerOfTwo xs.length = true) (hI : I.IsExact)
    (hf : ∀ s, Samples Node.id b.graph xs s →
      ∀ d ∈ Demand.transform (Expr.arithmetic b.rules) xs.length s,
        ∀ f ∈ d.tree.folds b.rules, f.Respected I)
    {w : QuadraticAlgebra R (-1) 0} (hw : 1 < xs.length → w ^ (xs.length / 2) = ⟨-1, 0⟩)
    (ht : ∀ n k, n ∣ xs.length → k < n / 2 → ∀ z b₁ values,
      Sample.polar (-2 * 3.141592653589793 * Float.ofNat k / Float.ofNat n) b = .ok z b₁ →
        b₁.graph.Respects I values → (z.point values).complex = w ^ (k * (xs.length / n))) :
    ∃ s ys b', Samples Node.id b.graph xs s ∧ transform xs b = .ok ys b' ∧
      b.Performs ((Demand.transform (Expr.arithmetic b.rules) xs.length s).map Demand.tree) b' ∧
      ys.length = xs.length ∧
      ∀ values, b'.graph.Respects I values → ∀ (k : Nat) y, ys[k]? = some y →
        (y.point values).complex =
          ∑ j : Fin xs.length, (xs[j].point values).complex * w ^ (j.val * k) := by
  have hsound : b.graph.Sound := ⟨hb.consistent, ho⟩
  obtain ⟨s, hs⟩ := Samples.exists ho Node.id hx
  obtain ⟨ys, b', hrun, hperf, hlen, hys⟩ := transform_yields hsound hs hp
  refine ⟨s, ys, b', hs, hrun, hperf, hlen, ?_⟩
  intro values hv k y hy
  have hids := (hperf.grows.sound hsound).values_id values
  have hk : k < xs.length := by
    rw [← hlen]
    exact (List.getElem?_eq_some_iff.mp hy).1
  have hinput : ∀ j : Fin xs.length,
      ((s j).map (Expr.eval I values)).complex = (xs[j].point values).complex := by
    intro j
    have hj := (hs j xs[j] (List.getElem?_eq_getElem j.isLt)).keeps hperf.keeps
    rw [hj.value hv hids]
  have hroot : 1 < xs.length → w ^ (xs.length / 2) = -1 := by
    intro h
    rw [hw h]
    ext
    · rfl
    · exact neg_zero.symm
  rw [(hys k y hy).value hv hids,
    eval_transform_eq_dft hI hp (hI.harmless (hf s hs) values) hroot
      (fun m j hm hj => polar_value hsound _ values (angle_eq j m ▸ ht m j hm hj)) hk, dft,
    Finset.sum_range]
  apply Finset.sum_congr rfl
  intro j _
  rw [hinput]

/-- Integers that know `0`, `1` and `-1`, and to which every other angle is a right one. -/
def quarterTurn : Interpretation ℤ where
  constant x := if x == 0 then 0 else if x == 1 then 1 else if x == -1 then -1 else 2
  binary
    | .plus => (· + ·)
    | .minus => (· - ·)
    | .times => (· * ·)
    | .div => (· / ·)
  unary
    | .cos => fun x => if x = 0 then 1 else 0
    | .sin => fun x => if x = 0 then 0 else -1

/-- Four numbers that are read, and the constants that the rules know. -/
def fourPoints : Builder :=
  [Call.declare "data" 4, .read 0 0, .read 0 1, .read 0 2, .read 0 3, .lift 0, .lift 1,
    .lift (-1)].foldl (fun b c => c.run.after b)
    (.withRules ⟨false, true⟩ [.identity, .absorb, .negationFold])

def fourSamples : List Sample :=
  [⟨0, 1⟩, ⟨2, 3⟩, ⟨4, 5⟩, ⟨6, 4⟩]

theorem reachable_fourPoints : Reachable fourPoints :=
  Reachable.calls (.start _ _) _

theorem list_fourPoints : fourPoints.graph.list = [⟨0, .read 0 0 0, none⟩, ⟨1, .read 0 1 0, none⟩,
    ⟨2, .read 0 2 0, none⟩, ⟨3, .read 0 3 0, none⟩, ⟨4, .const 0, none⟩, ⟨5, .const 1, none⟩,
    ⟨6, .const (-1), none⟩] := by
  cbv

theorem ordered_fourPoints : fourPoints.graph.Ordered := by
  apply reachable_fourPoints.consistent.ordered_of_list
  rw [list_fourPoints]
  decide

theorem isExact_quarterTurn : quarterTurn.IsExact where
  plus _ _ := rfl
  minus _ _ := rfl
  times _ _ := rfl
  zero := by decide
  negZero := by decide
  one := by decide
  negOne := by decide

theorem harmless_polar {rules : List Rule} {values : NodeId → ℤ}
    (h : ∀ d ∈ (Demand.polar θ : List (Demand (Expr NodeId))), ∀ f ∈ d.tree.folds rules,
      f.Respected quarterTurn) :
    Expr.Harmless quarterTurn values rules (Demand.polar θ) :=
  fun d hd => Expr.eval_simplify isExact_quarterTurn (fun _ => Int.ediv_one) (h d hd)

theorem respected_fourPoints (d : Demand (Expr NodeId)) :
    ∀ f ∈ d.tree.folds fourPoints.rules, f.Respected quarterTurn := by
  rw [Expr.folds_of_not_mem (by decide)]
  exact nofun

theorem polar_fourPoints (hn : n ∣ fourSamples.length) (hk : k < n / 2) {z : Sample}
    {values : NodeId → ℤ} (hz : Sample.polar (angle k n) fourPoints = .ok z b₁)
    (hr : b₁.graph.Respects quarterTurn values) : (z.point values).complex =
      (⟨0, -1⟩ : QuadraticAlgebra ℤ (-1) 0) ^ (k * (fourSamples.length / n)) := by
  rw [polar_point ⟨reachable_fourPoints.consistent, ordered_fourPoints⟩
    (harmless_polar fun d _ => respected_fourPoints d) hz hr]
  have hle : n ≤ fourSamples.length := Nat.le_of_dvd (by decide) hn
  change n ≤ 4 at hle
  interval_cases n
  all_goals interval_cases k
  · decide +kernel
  · exact absurd hn (by decide)
  · decide +kernel
  · decide +kernel

/-- Three numbers that are read and a constant, with the rule that folds constants. -/
def twoPoints : Builder :=
  [Call.declare "data" 3, .read 0 0, .read 0 1, .read 0 2, .lift 1].foldl
    (fun b c => c.run.after b) (.withRules ⟨false, true⟩ [.constantFold])

def twoSamples : List Sample :=
  [⟨0, 1⟩, ⟨3, 2⟩]

theorem reachable_twoPoints : Reachable twoPoints :=
  Reachable.calls (.start _ _) _

theorem list_twoPoints : twoPoints.graph.list = [⟨0, .read 0 0 0, none⟩, ⟨1, .read 0 1 0, none⟩,
    ⟨2, .read 0 2 0, none⟩, ⟨3, .const 1, none⟩] := by
  cbv

theorem ordered_twoPoints : twoPoints.graph.Ordered := by
  apply reachable_twoPoints.consistent.ordered_of_list
  rw [list_twoPoints]
  decide

theorem samples_twoPoints (hs : Samples Node.id twoPoints.graph twoSamples s) :
    s 0 = ⟨.leaf 0, .leaf 1⟩ ∧ s 1 = ⟨.const 1, .leaf 2⟩ := by
  have hnode : ∀ (i : Nat) n, twoPoints.graph.list[i]? = some n →
      twoPoints.graph.node? i = some n := fun i n hn => (Graph.node?_eq _ i).trans hn
  rw [list_twoPoints] at hnode
  have hx := hs 0 ⟨0, 1⟩ rfl
  have hy := hs 1 ⟨3, 2⟩ rfl
  constructor
  · exact congrArg₂ Point.mk (hx.re.unique (.leaf (hnode 0 _ rfl) rfl))
      (hx.im.unique (.leaf (hnode 1 _ rfl) rfl))
  · exact congrArg₂ Point.mk (hy.re.unique (.const (hnode 3 _ rfl) rfl))
      (hy.im.unique (.leaf (hnode 2 _ rfl) rfl))

/-- What the one rule makes of an operation. -/
theorem rewrites_constantFold (e : Expr ι) : e.rewrites [.constantFold] = match e with
    | .binary op (.const x) (.const y) => [(.constantFold, .fold (.binary op x y))]
    | .unary op (.const x) => [(.constantFold, .fold (.unary op x))]
    | _ => [] := by
  split
  · exact Expr.rewrites_fold rfl
  · exact Expr.rewrites_fold rfl
  · rename_i hbinary hunary
    apply Expr.rewrites_none
    simp only [Rule.firstRewrite?, List.findSome?_cons, List.findSome?_nil]
    unfold Rule.rewrite?
    split <;> simp_all

theorem exactCos_negZero : exactCos (-0.0) = Float.cos (-0.0) :=
  if_neg (by decide +kernel)

/-- All that is folded in the transform of the two points. -/
theorem folds_twoPoints (hcos : Float.cos (-0.0) = 1) (hsin : Float.sin (-0.0) = -0.0)
    (hs : Samples Node.id twoPoints.graph twoSamples s) :
    (Demand.transform (Expr.arithmetic twoPoints.rules) 2 s).flatMap
      (fun d => d.tree.folds twoPoints.rules) = [.unary .cos (-0.0), .unary .sin (-0.0),
        .binary .times 1 1, .binary .times (-0.0) 1] := by
  obtain ⟨hx, hy⟩ := samples_twoPoints hs
  have hrules : twoPoints.rules = [.constantFold] := by decide
  have hangle : angle 0 2 = -0.0 := rfl
  have hzero : exactCos (-0.0) = 1 := exactCos_negZero.trans hcos
  have hdouble := Demand.transform_double (Expr.arithmetic twoPoints.rules) s Nat.one_pos
  rw [Nat.mul_one] at hdouble
  rw [hdouble, hrules]
  simp [Demand.transform_one, Arithmetic.transform_one, hx, hy, Demand.butterfly, Demand.polar,
    Demand.mul, Demand.parts, Demand.tree, Expr.arithmetic, Arithmetic.mul, Expr.simplify,
    Expr.folds, rewrites_constantFold, hangle, Rewrite.tree, Rewrite.fold?, Fold.value,
    UnaryOp.fold, hzero, hsin]

theorem respected_twoPoints (hcos : Float.cos (-0.0) = 1) (hsin : Float.sin (-0.0) = -0.0)
    (hs : Samples Node.id twoPoints.graph twoSamples s) :
    ∀ d ∈ Demand.transform (Expr.arithmetic twoPoints.rules) 2 s,
      ∀ f ∈ d.tree.folds twoPoints.rules, f.Respected quarterTurn := by
  have hzero : exactCos (-0.0) = 1 := exactCos_negZero.trans hcos
  intro d hd f hf
  have hmem : f ∈ (Demand.transform (Expr.arithmetic twoPoints.rules) 2 s).flatMap
      fun d => d.tree.folds twoPoints.rules := List.mem_flatMap.mpr ⟨d, hd, hf⟩
  rw [folds_twoPoints hcos hsin hs] at hmem
  simp only [List.mem_cons, List.not_mem_nil, or_false] at hmem
  rcases hmem with rfl | rfl | rfl | rfl
  · rw [Fold.Respected, UnaryOp.fold, hzero]
    decide
  · rw [Fold.Respected, UnaryOp.fold, hsin]
    decide
  · rw [Fold.Respected]
    decide
  · rw [Fold.Respected]
    decide

theorem below_twoPoints : ∀ i : Nat, i ∈ twoSamples.flatMap Sample.nodes →
    i < twoPoints.graph.size := by
  decide

theorem polar_twoPoints (hcos : Float.cos (-0.0) = 1) (hsin : Float.sin (-0.0) = -0.0)
    (hn : n ∣ twoSamples.length) (hk : k < n / 2) {z : Sample} {values : NodeId → ℤ}
    (hz : Sample.polar (angle k n) twoPoints = .ok z b₁)
    (hr : b₁.graph.Respects quarterTurn values) : (z.point values).complex =
      (⟨-1, 0⟩ : QuadraticAlgebra ℤ (-1) 0) ^ (k * (twoSamples.length / n)) := by
  have hle : n ≤ twoSamples.length := Nat.le_of_dvd (by decide) hn
  change n ≤ 2 at hle
  obtain ⟨rfl, rfl⟩ : n = 2 ∧ k = 0 := by omega
  obtain ⟨s, hs⟩ := Samples.exists ordered_twoPoints Node.id below_twoPoints
  have hasked : Demand.polar (angle 0 2) ⊆
      Demand.transform (Expr.arithmetic twoPoints.rules) 2 s :=
    Demand.polar_subset _ 1 s dvd_rfl hk
  rw [polar_point ⟨reachable_twoPoints.consistent, ordered_twoPoints⟩
    (harmless_polar fun d hd => respected_twoPoints hcos hsin hs d (hasked hd)) hz hr]
  decide +kernel

/-- Four points under rules that fold nothing, and two points whose twiddle factor is folded with
the sine and the cosine that it should have. -/
theorem transform_sums_fourPoints :
    (∃ s ys b', Samples Node.id fourPoints.graph fourSamples s ∧
      transform fourSamples fourPoints = .ok ys b' ∧
      fourPoints.Performs ((Demand.transform (Expr.arithmetic fourPoints.rules) 4 s).map
        Demand.tree) b' ∧ ys.length = 4 ∧
      ∀ values : NodeId → ℤ, b'.graph.Respects quarterTurn values →
        ∀ (k : Nat) y, ys[k]? = some y → (y.point values).complex =
          ∑ j : Fin fourSamples.length, (fourSamples[j].point values).complex *
            (⟨0, -1⟩ : QuadraticAlgebra ℤ (-1) 0) ^ (j.val * k)) ∧
    (Float.cos (-0.0) = 1 → Float.sin (-0.0) = -0.0 →
      ∃ s ys b', Samples Node.id twoPoints.graph twoSamples s ∧
        transform twoSamples twoPoints = .ok ys b' ∧
        (Demand.transform (Expr.arithmetic twoPoints.rules) 2 s).flatMap
          (fun d => d.tree.folds twoPoints.rules) = [.unary .cos (-0.0), .unary .sin (-0.0),
            .binary .times 1 1, .binary .times (-0.0) 1] ∧
        ∀ values : NodeId → ℤ, b'.graph.Respects quarterTurn values →
          ∀ (k : Nat) y, ys[k]? = some y → (y.point values).complex =
            ∑ j : Fin twoSamples.length, (twoSamples[j].point values).complex *
              (⟨-1, 0⟩ : QuadraticAlgebra ℤ (-1) 0) ^ (j.val * k)) := by
  constructor
  · refine transform_sums reachable_fourPoints ordered_fourPoints (by decide) (by decide)
      isExact_quarterTurn (fun s _ d _ => respected_fourPoints d) ?_ ?_
    · intro _
      decide
    · intro n k hn hk z b₁ values hz
      exact polar_fourPoints hn hk (angle_eq k n ▸ hz)
  · intro hcos hsin
    obtain ⟨s, ys, b', hs, hrun, _, _, hsums⟩ := transform_sums (w := ⟨-1, 0⟩)
      reachable_twoPoints ordered_twoPoints below_twoPoints (by decide) isExact_quarterTurn
      (fun s hs => respected_twoPoints hcos hsin hs) (fun _ => pow_one _)
      (fun n k hn hk z b₁ values hz => polar_twoPoints hcos hsin hn hk (angle_eq k n ▸ hz))
    exact ⟨s, ys, b', hs, hrun, folds_twoPoints hcos hsin hs, hsums⟩

end Fourier

end FlatFourier
