import Mathlib
import FlatFourier.Proofs.Calls
import FlatFourier.Proofs.RingRules

namespace FlatFourier

open Build

variable {α : Type u} {I : Interpretation α} {known : NodeId → α} {g g' : Graph}

/-- Gives a node its value. What is read or written has a known one. -/
def Node.settle (I : Interpretation α) (known values : NodeId → α) (n : Node) : NodeId → α :=
  fun i =>
    if i = n.id then
      if n.kind.array?.isSome then known i else n.kind.value I values fun _ _ => []
    else values i

/-- The values of all nodes, from the oldest to the youngest. -/
def Graph.evaluate (I : Interpretation α) (known : NodeId → α) (g : Graph) : NodeId → α :=
  g.list.foldl (Node.settle I known) known

theorem foldl_settle_of_ne {nodes : List Node} {values : NodeId → α} {i : Nat}
    (h : ∀ n ∈ nodes, n.id ≠ i) : nodes.foldl (Node.settle I known) values i = values i := by
  induction nodes generalizing values with
  | nil => rfl
  | cons n nodes ih =>
    rw [List.foldl_cons, ih fun m hm => h m (List.mem_cons_of_mem n hm)]
    exact if_neg (h n List.mem_cons_self).symm

namespace Graph

/-- The value of a node is settled once the nodes up to it are. -/
theorem Consistent.evaluate_take (h : g.Consistent) {i k : Nat} (hi : i < k) :
    g.evaluate I known i = (g.list.take k).foldl (Node.settle I known) known i := by
  rw [evaluate, ← List.take_append_drop k g.list, List.foldl_append, List.take_append_drop]
  apply foldl_settle_of_ne
  intro n hn
  obtain ⟨j, hj⟩ := List.mem_iff_getElem?.mp hn
  rw [List.getElem?_drop, ← node?_eq] at hj
  rw [h.ids _ n hj]
  exact Nat.ne_of_gt (Nat.lt_of_lt_of_le hi (Nat.le_add_right k j))

/-- Each node has the value that the values of its operands give to it. -/
theorem Sound.evaluate_node (h : g.Sound) {i : Nat} (hn : g.node? i = some n) :
    g.evaluate I known i =
      if n.kind.array?.isSome then known i
      else n.kind.value I (g.evaluate I known) fun _ _ => [] := by
  have hlist := hn
  rw [node?_eq] at hlist
  rw [h.evaluate_take (Nat.lt_succ_self i), List.take_add_one, hlist, Option.toList_some,
    List.foldl_append, List.foldl_cons, List.foldl_nil, Node.settle, if_pos (h.ids i n hn).symm]
  refine congrArg _ (Kind.value_congr ?_ fun _ _ _ _ => rfl)
  intro j hj
  exact (h.evaluate_take (h.ordered i n hn j hj)).symm

theorem Sound.evaluate_respects (h : g.Sound) : g.Respects I (g.evaluate I known) := by
  intro i n hn ha
  rw [h.evaluate_node hn, ha]
  rfl

end Graph

/-- A node has the value of its tree. -/
theorem Unfolds.evaluate (h : Unfolds Node.id g i e) (hg : g.Sound) :
    g.evaluate I known i = e.eval I known := by
  refine h.value hg.evaluate_respects ?_
  intro j n hn ha
  rw [hg.evaluate_node hn, if_pos ha, hg.ids j n hn]

/-- An operation has the value of its tree. -/
theorem Spells.evaluate (h : Spells Node.id g kind e) (hg : g.Sound) :
    kind.value I (g.evaluate I known) (fun _ _ => []) = e.eval I known := by
  cases h with
  | const x => rfl
  | binary op hl hr => rw [Kind.value, hl.evaluate hg, hr.evaluate hg, Expr.eval]
  | unary op ha => rw [Kind.value, ha.evaluate hg, Expr.eval]

/-- Nodes keep their values in a larger graph. -/
theorem Graph.Keeps.evaluate (hk : g.Keeps g') (hg : g.Sound) (hg' : g'.Sound) {j : Nat}
    (hj : j < g.size) : g'.evaluate I known j = g.evaluate I known j := by
  obtain ⟨e, he⟩ := Unfolds.exists_of_ordered hg.ordered Node.id hj
  rw [he.evaluate hg, (he.keeps hk).evaluate hg']

/-- Under any rules, building an operation over nodes that exist answers with a node of the same
value, and all older nodes keep theirs. Only the constants that stand for folded operations need to
have their values. -/
theorem operation_value [CommRing R] {b : Builder} (hb : Reachable b) (ho : b.graph.Ordered)
    (kind : Kind) (hkind : kind.IsArithmetic) (hbelow : kind.Below b.graph.size)
    {I : Interpretation R} (hI : I.IsExact) (hdiv : ∀ r, I.binary .div r 1 = r)
    (hf : ∀ e, Spells Node.id b.graph kind e → ∀ f ∈ e.folds b.rules, f.Respected I)
    (known : NodeId → R) :
    ∃ i b', operation kind b = .ok i b' ∧ b.graph.Keeps b'.graph ∧
      b'.graph.evaluate I known i = kind.value I (b.graph.evaluate I known) (fun _ _ => []) ∧
      ∀ j < b.graph.size, b'.graph.evaluate I known j = b.graph.evaluate I known j := by
  have hsound : b.graph.Sound := ⟨hb.consistent, ho⟩
  obtain ⟨e, he⟩ := Spells.exists_of_ordered ho Node.id hkind hbelow
  obtain ⟨i, b', hrun, hperf, hkeeps, hu⟩ := operation_yields hsound (.refl b) he
  have hsound' : b'.graph.Sound := hperf.grows.sound hsound
  refine ⟨i, b', hrun, hkeeps, ?_, fun j hj => hkeeps.evaluate hsound hsound' hj⟩
  calc b'.graph.evaluate I known i
    _ = (e.simplify b.rules).eval I known := hu.evaluate hsound'
    _ = e.eval I known := Expr.eval_simplify hI (fun _ => hdiv) (hf e he)
    _ = kind.value I (b.graph.evaluate I known) fun _ _ => [] := (he.evaluate hsound).symm

/-- Integers, and constants without what is behind the point. -/
def Interpretation.truncated : Interpretation ℤ where
  constant x := if x < 0 then -((-x).toUInt64.toNat : ℤ) else x.toUInt64.toNat
  binary
    | .plus => (· + ·)
    | .minus => (· - ·)
    | .times => (· * ·)
    | .div => (· / ·)
  unary _ _ := 0

theorem Interpretation.isExact_truncated : truncated.IsExact where
  plus _ _ := rfl
  minus _ _ := rfl
  times _ _ := rfl
  zero := by decide
  negZero := by decide
  one := by decide
  negOne := by decide

/-- A number that is read, minus three as a difference that no rule has seen, and minus one. -/
def negations : Builder :=
  [Call.declare "data" 1, .read 0 0, .lift 0, .lift 3, .make (.binary .minus 1 2),
    .lift (-1)].foldl (fun b c => c.run.after b)
    (.withRules ⟨false, true⟩ [.negationFold, .constantFold, .identity, .constantFold])

theorem reachable_negations : Reachable negations :=
  Reachable.calls (.start _ _) _

theorem list_negations : negations.graph.list = [⟨0, .read 0 0 0, none⟩, ⟨1, .const 0, none⟩,
    ⟨2, .const 3, none⟩, ⟨3, .binary .minus 1 2, none⟩, ⟨4, .const (-1), none⟩] := by
  cbv

theorem ordered_negations : negations.graph.Ordered := by
  apply reachable_negations.consistent.ordered_of_list
  rw [list_negations]
  decide

theorem tree_negations (h : Spells Node.id negations.graph (.binary .times 3 4) e) :
    e = .binary .times (.binary .minus (.const 0) (.const 3)) (.const (-1)) := by
  have hnode : ∀ (i : Nat) n, negations.graph.list[i]? = some n →
      negations.graph.node? i = some n := fun i n hn => (Graph.node?_eq _ i).trans hn
  rw [list_negations] at hnode
  have hthree : Unfolds Node.id negations.graph 3 (.binary .minus (.const 0) (.const 3)) :=
    .binary (hnode 3 _ rfl) rfl (.const (hnode 1 _ rfl) rfl) (.const (hnode 2 _ rfl) rfl)
  have hone : Unfolds Node.id negations.graph 4 (.const (-1)) := .const (hnode 4 _ rfl) rfl
  cases h with
  | binary _ hl hr => rw [hl.unique hthree, hr.unique hone]

/-- The product of minus three and minus one turns into a difference, then into a sum, and then into
a constant. -/
theorem folds_negations :
    (.binary .times (.binary .minus (.const 0) (.const 3)) (.const (-1)) : Expr NodeId).folds
      negations.rules = [.binary .plus 0 3] := by
  have hproduct : Rule.firstRewrite? negations.rules
      (.binary .times (.binary .minus (.const 0) (.const 3)) (.const (-1)) : Expr NodeId) =
      some (.negationFold, .again .minus (.const 0) (.binary .minus (.const 0) (.const 3))) := rfl
  have hdifference : Rule.firstRewrite? negations.rules
      (.binary .minus (.const 0) (.binary .minus (.const 0) (.const 3)) : Expr NodeId) =
      some (.negationFold, .again .plus (.const 0) (.const 3)) := rfl
  have hsum : Rule.firstRewrite? negations.rules
      (.binary .plus (.const 0) (.const 3) : Expr NodeId) =
      some (.constantFold, .fold (.binary .plus 0 3)) := rfl
  rw [Expr.folds_again hproduct, Expr.folds_again hdifference, Expr.folds,
    Expr.rewrites_fold hsum]
  rfl

theorem operation_value_negations : ∃ i b', operation (.binary .times 3 4) negations = .ok i b' ∧
    negations.graph.Keeps b'.graph ∧ b'.graph.evaluate .truncated (fun _ => 7) i = 3 ∧
    ∀ j < 5, b'.graph.evaluate .truncated (fun _ => 7) j =
      negations.graph.evaluate .truncated (fun _ => 7) j := by
  have hsize : negations.graph.size = 5 := by decide
  have hbelow : (Kind.binary .times 3 4).Below negations.graph.size := by
    rw [hsize]
    exact (by decide : ∀ a ∈ [3, 4], a < 5)
  have hfolds : ∀ e, Spells Node.id negations.graph (.binary .times 3 4) e →
      ∀ f ∈ e.folds negations.rules, f.Respected .truncated := by
    intro e he f hf
    rw [tree_negations he, folds_negations, List.mem_singleton] at hf
    rw [hf, Fold.Respected]
    decide
  obtain ⟨i, b', hrun, hkeeps, hvalue, hold⟩ := operation_value reachable_negations
    ordered_negations (.binary .times 3 4) trivial hbelow Interpretation.isExact_truncated
    Int.ediv_one hfolds fun _ => 7
  refine ⟨i, b', hrun, hkeeps, ?_, hsize ▸ hold⟩
  rw [hvalue]
  decide

end FlatFourier
