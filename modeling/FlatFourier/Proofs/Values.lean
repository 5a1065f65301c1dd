import FlatFourier.Proofs.PlanOrder
import FlatFourier.Proofs.Radix

namespace FlatFourier

def Point.map (f : α → β) (p : Point α) : Point β :=
  ⟨f p.re, f p.im⟩

/-- The values of a sample's parts. -/
def Sample.point (values : NodeId → α) (x : Sample) : Point α :=
  ⟨values x.re, values x.im⟩

/-- The value of a tree whose leaves have known values. -/
def Expr.eval (I : Interpretation α) (known : ι → α) : Expr ι → α
  | const x => I.constant x
  | binary op l r => I.binary op (l.eval I known) (r.eval I known)
  | unary op a => I.unary op (a.eval I known)
  | result a => a.eval I known
  | leaf x => known x

/-- Values that respect the operations of a graph. What is read or written may be anything. -/
def Graph.Respects (I : Interpretation α) (g : Graph) (values : NodeId → α) : Prop :=
  ∀ (i : Nat) n, g.node? i = some n → n.kind.array? = none →
    values i = n.kind.value I values fun _ _ => []

variable {α : Type u} {I : Interpretation α} {g g' : Graph} {values : NodeId → α}

theorem Graph.Respects.of_keeps (h : g'.Respects I values) (hk : g.Keeps g') :
    g.Respects I values :=
  fun i n hn => h i n (hk i n hn)

/-- A node has the value of its tree. -/
theorem Unfolds.value {label : Node → ι} {known : ι → α} (h : Unfolds label g i e)
    (hr : g.Respects I values)
    (hk : ∀ (j : Nat) n, g.node? j = some n → n.kind.array?.isSome → values j = known (label n)) :
    values i = e.eval I known := by
  induction h with
  | const hn hx =>
    rw [hr _ _ hn (by simp [hx, Kind.array?]), hx]
    rfl
  | binary hn hx _ _ ihl ihr =>
    rw [hr _ _ hn (by simp [hx, Kind.array?]), hx]
    exact congr (congrArg _ ihl) ihr
  | unary hn hx _ ih =>
    rw [hr _ _ hn (by simp [hx, Kind.array?]), hx]
    exact congrArg _ ih
  | result hn hx _ ih =>
    rw [hr _ _ hn (by simp [hx, Kind.array?]), hx]
    exact ih
  | leaf hn hx => exact hk _ _ hn hx

theorem Sample.Unfolds.value {label : Node → ι} {known : ι → α} {x : Sample}
    (h : x.Unfolds label g p) (hr : g.Respects I values)
    (hk : ∀ (j : Nat) n, g.node? j = some n → n.kind.array?.isSome → values j = known (label n)) :
    x.point values = p.map (Expr.eval I known) := by
  rw [Sample.point, h.re.value hr hk, h.im.value hr hk]
  rfl

/-- In a consistent graph, leaves told apart by their ids have the values of their nodes. -/
theorem Graph.Consistent.values_id (h : g.Consistent) (values : NodeId → α) (j : Nat) (n : Node)
    (hn : g.node? j = some n) (_ : n.kind.array?.isSome) : values j = values n.id := by
  rw [h.ids j n hn]

/-- Any values of what is read and written extend to values that respect the operations. -/
theorem Graph.Ordered.exists_respects {ι : Type} (ho : g.Ordered) (I : Interpretation α)
    (label : Node → ι) (known : ι → α) :
    ∃ values, g.Respects I values ∧ ∀ (j : Nat) n, g.node? j = some n → n.kind.array?.isSome →
      values j = known (label n) := by
  have htree : ∀ i : Nat, ∃ v, ∀ e, Unfolds label g i e → v = e.eval I known := by
    intro i
    by_cases h : ∃ e, Unfolds label g i e
    · obtain ⟨e, he⟩ := h
      exact ⟨e.eval I known, fun e' he' => he.unique he' ▸ rfl⟩
    · exact ⟨I.constant 0, fun e he => absurd ⟨e, he⟩ h⟩
  obtain ⟨values, hv⟩ := Classical.skolem.mp htree
  refine ⟨values, ?_, fun j n hn ha => hv j _ (.leaf hn ha)⟩
  intro i n hn ha
  obtain ⟨e, he⟩ := Unfolds.exists_of_ordered ho label (lt_of_node? hn)
  have hself := hv i e he
  cases he with
  | const hn' hk =>
    cases hn.symm.trans hn'
    rw [hself, hk]
    rfl
  | binary hn' hk hl hr =>
    cases hn.symm.trans hn'
    rw [hself, hk, Expr.eval, ← hv _ _ hl, ← hv _ _ hr]
    rfl
  | unary hn' hk hu =>
    cases hn.symm.trans hn'
    rw [hself, hk, Expr.eval, ← hv _ _ hu]
    rfl
  | result hn' hk hu =>
    cases hn.symm.trans hn'
    rw [hself, hk, Expr.eval, ← hv _ _ hu]
    rfl
  | leaf hn' hk =>
    cases hn.symm.trans hn'
    rw [ha] at hk
    cases hk

/-- The values that executing all nodes gives respect their operations. -/
theorem Builder.Disciplined.respects {b : Builder} (h : b.Disciplined) (I : Interpretation α)
    (initial : ArrayId → List α) :
    b.graph.Respects I ((Execution.start I initial).run I b.graph.list).values := by
  intro i n hn ha
  obtain ⟨hv, _⟩ := h.orderly.solves I initial
  obtain rfl := h.id_eq hn
  rw [hv n (h.mem_list.mpr hn)]
  refine Kind.value_congr (fun _ _ => rfl) ?_
  intro a c e hk
  simp [hk, Kind.array?] at ha

/-- The arithmetic of an interpretation. -/
def Interpretation.arithmetic (I : Interpretation α) : Arithmetic α where
  plus := I.binary .plus
  minus := I.binary .minus
  times := I.binary .times
  polar angle := ⟨I.unary .cos (I.constant angle), I.unary .sin (I.constant angle)⟩

namespace Expr

variable {known : ι → α} {rules : List Rule}

/-- The rules change no value among the given requests. -/
def Harmless (I : Interpretation α) (known : ι → α) (rules : List Rule)
    (asked : List (Demand (Expr ι))) : Prop :=
  ∀ d ∈ asked, (d.tree.simplify rules).eval I known = d.tree.eval I known

theorem Harmless.left (h : Harmless I known rules (xs ++ ys)) : Harmless I known rules xs :=
  fun d hd => h d (List.mem_append_left _ hd)

theorem Harmless.right (h : Harmless I known rules (xs ++ ys)) : Harmless I known rules ys :=
  fun d hd => h d (List.mem_append_right _ hd)

theorem eval_polar {angle : Float} (h : Harmless I known rules (Demand.polar angle)) :
    ((arithmetic rules).polar angle).map (eval I known) = I.arithmetic.polar angle := by
  simp only [Harmless, Demand.polar, Demand.tree, List.forall_mem_cons] at h
  simp only [Point.map, arithmetic, h.1, h.2.1]
  rfl

theorem eval_add {p q : Point (Expr ι)} (h : Harmless I known rules (Demand.parts .plus p q)) :
    ((arithmetic rules).add p q).map (eval I known) =
      I.arithmetic.add (p.map (eval I known)) (q.map (eval I known)) := by
  simp only [Harmless, Demand.parts, Demand.tree, List.forall_mem_cons] at h
  simp only [Point.map, Arithmetic.add, arithmetic, h.1, h.2.1]
  rfl

theorem eval_sub {p q : Point (Expr ι)} (h : Harmless I known rules (Demand.parts .minus p q)) :
    ((arithmetic rules).sub p q).map (eval I known) =
      I.arithmetic.sub (p.map (eval I known)) (q.map (eval I known)) := by
  simp only [Harmless, Demand.parts, Demand.tree, List.forall_mem_cons] at h
  simp only [Point.map, Arithmetic.sub, arithmetic, h.1, h.2.1]
  rfl

theorem eval_mul {p q : Point (Expr ι)}
    (h : Harmless I known rules (Demand.mul (arithmetic rules) p q)) :
    ((arithmetic rules).mul p q).map (eval I known) =
      I.arithmetic.mul (p.map (eval I known)) (q.map (eval I known)) := by
  simp only [Harmless, Demand.mul, Demand.tree, List.forall_mem_cons, arithmetic] at h
  obtain ⟨h₁, h₂, h₃, h₄, h₅, h₆, _⟩ := h
  simp only [eval, h₁, h₂, h₃, h₄] at h₅ h₆
  simp only [Point.map, Arithmetic.mul, arithmetic, h₅, h₆]
  rfl

/-- Both outputs of a butterfly. -/
theorem eval_butterfly {n k : Nat} {p q : Point (Expr ι)}
    (h : Harmless I known rules (Demand.butterfly (arithmetic rules) n k p q)) :
    (let A := arithmetic rules
     (A.add p (A.mul (A.polar (Fourier.angle k n)) q)).map (eval I known) =
        I.arithmetic.add (p.map (eval I known))
          (I.arithmetic.mul (I.arithmetic.polar (Fourier.angle k n)) (q.map (eval I known))) ∧
      (A.sub p (A.mul (A.polar (Fourier.angle k n)) q)).map (eval I known) =
        I.arithmetic.sub (p.map (eval I known))
          (I.arithmetic.mul (I.arithmetic.polar (Fourier.angle k n)) (q.map (eval I known)))) := by
  simp only [Demand.butterfly] at h
  have hpolar := eval_polar h.left.left.left
  have hmul := eval_mul h.left.left.right
  rw [hpolar] at hmul
  refine ⟨?_, ?_⟩
  · rw [eval_add h.left.right, hmul]
  · rw [eval_sub h.right, hmul]

/-- The tree of a transform has the value of the transform. -/
theorem eval_transform (depth : Nat) {s : Nat → Point (Expr ι)}
    (h : Harmless I known rules (Demand.transform (arithmetic rules) (Nat.pow 2 depth) s))
    (hk : k < Nat.pow 2 depth) :
    ((arithmetic rules).transform (Nat.pow 2 depth) s k).map (eval I known) =
      I.arithmetic.transform (Nat.pow 2 depth) (fun i => (s i).map (eval I known)) k := by
  induction depth generalizing s k with
  | zero =>
    have hone : Nat.pow 2 0 = 1 := rfl
    rw [hone, Arithmetic.transform_one, Arithmetic.transform_one]
  | succ depth ih =>
    have hpos : 0 < Nat.pow 2 depth := Nat.pow_pos (by omega)
    have hdouble : Nat.pow 2 (depth + 1) = 2 * Nat.pow 2 depth := Nat.mul_comm _ _
    generalize Nat.pow 2 depth = half at ih hpos hdouble
    rw [hdouble] at h hk ⊢
    rw [Demand.transform_double _ _ hpos] at h
    have hbutterfly : ∀ j, j < half → _ := fun j hj =>
      eval_butterfly fun d hd => h.right d (List.mem_flatMap.mpr ⟨j, List.mem_range.mpr hj, hd⟩)
    by_cases hlt : k < half
    · rw [Arithmetic.transform_upper _ _ hlt, Arithmetic.transform_upper _ _ hlt]
      rw [(hbutterfly k hlt).1, ih h.left.left hlt, ih h.left.right hlt]
    · obtain ⟨j, rfl⟩ := Nat.exists_eq_add_of_le (Nat.le_of_not_lt hlt)
      have hj : j < half := by omega
      rw [Arithmetic.transform_lower _ _ hj, Arithmetic.transform_lower _ _ hj]
      rw [(hbutterfly j hj).2, ih h.left.left hj, ih h.left.right hj]

end Expr

end FlatFourier
