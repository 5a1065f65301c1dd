import Mathlib
import FlatFourier.Proofs.NormalForm
import FlatFourier.Proofs.WriteRecord

namespace FlatFourier

open Build

/-- Where the first step succeeds, the second does the same. -/
def Build.Refines (step step' : Build α) : Prop :=
  ∀ b a b', step b = .ok a b' → step' b = .ok a b'

namespace Build.Refines

theorem refl (step : Build α) : Refines step step :=
  fun _ _ _ h => h

theorem bind {step step' : Build α} {rest rest' : α → Build β} (h : Refines step step')
    (hr : ∀ a, Refines (rest a) (rest' a)) : Refines (step >>= rest) (step' >>= rest') := by
  intro b c b'' hs
  obtain ⟨a, b', hstep, hrest⟩ := run_bind_ok hs
  exact (run_bind (h b a b' hstep)).trans (hr a b' c b'' hrest)

end Build.Refines

namespace Rule

variable {build build' : Kind → Build NodeId}

theorem foldNegation_refines (h : ∀ kind, Refines (build kind) (build' kind)) (kind : Kind) :
    Refines (foldNegation build kind) (foldNegation build' kind) := by
  have negate : ∀ a, Refines (negateBy build a >>= fun i => pure (some i))
      (negateBy build' a >>= fun i => pure (some i)) := by
    intro a
    exact .bind (.bind (.refl _) fun z => h _) fun i => .refl _
  cases kind with
  | binary op a c =>
    cases op with
    | plus =>
      refine .bind (.refl _) fun y => ?_
      cases y with
      | none => exact .refl _
      | some y => exact .bind (h _) fun i => .refl _
    | minus =>
      refine .bind (.refl _) fun y => ?_
      cases y with
      | none => exact .refl _
      | some y => exact .bind (h _) fun i => .refl _
    | times =>
      refine .bind (.refl _) fun right => ?_
      cases right with
      | true => exact negate a
      | false =>
        refine .bind (.refl _) fun left => ?_
        cases left with
        | true => exact negate c
        | false => exact .refl _
    | div => exact .refl _
  | _ => exact .refl _

theorem firstAnswer?_refines (h : ∀ kind, Refines (build kind) (build' kind)) (rules : List Rule)
    (kind : Kind) : Refines (firstAnswer? build rules kind) (firstAnswer? build' rules kind) := by
  induction rules with
  | nil => exact .refl _
  | cons rule rules ih =>
    have hrule : Refines (rule.answer? build kind) (rule.answer? build' kind) := by
      cases rule with
      | negationFold => exact foldNegation_refines h kind
      | _ => exact .refl _
    refine .bind hrule fun answer => ?_
    cases answer with
    | none => exact ih
    | some i => exact .refl _

end Rule

theorem Graph.Keeps.list_prefix {g g' : Graph} (h : g.Keeps g') : g.list <+: g'.list := by
  refine List.prefix_iff_eq_take.mpr (List.ext_getElem? fun j => ?_)
  rw [List.getElem?_take, length_list]
  split
  · obtain ⟨n, hn⟩ := node?_of_lt ‹j < g.size›
    rw [← node?_eq, ← node?_eq, hn, h j n hn]
  · exact List.getElem?_eq_none (by simpa using ‹¬j < g.size›)

namespace Build

variable {b b' : Builder} {kind : Kind} {i depth : Nat}

/-- What is built within some depth is built in the same way within any greater depth. -/
theorem within_refines (h : depth ≤ depth') (kind : Kind) :
    Refines (within depth kind) (within depth' kind) := by
  induction depth generalizing depth' kind with
  | zero =>
    intro b i b' hrun
    cases hrun
  | succ depth ih =>
    obtain ⟨depth', rfl⟩ := Nat.exists_eq_add_of_le' h
    have hle : depth ≤ depth' + depth := Nat.le_add_left _ _
    refine .bind (.refl _) fun b => ?_
    exact .bind (Rule.firstAnswer?_refines (ih hle) b.rules kind) fun answer => .refl _

/-- The builder after an operation: the graph is sound as before, and apart from the node of the
operation only constants are new. -/
structure Answered (b : Builder) (i : NodeId) (b' : Builder) : Prop where
  sound : b'.graph.Sound
  exist : i < b'.graph.size
  keeps : b.graph.Keeps b'.graph
  made : ∀ {j kind}, b.graph.size ≤ j → b'.graph.HasKind j kind → (∃ x, kind = .const x) ∨ j = i

theorem within_answers (hs : b.graph.Sound) (hk : kind.Below b.graph.size)
    (hd : kind.rank < depth) : Yields (within depth kind) b (Answered b) := by
  by_cases ha : kind.IsArithmetic
  · obtain ⟨e, he⟩ := Spells.exists_of_ordered hs.ordered Node.id ha hk
    refine (within_yields hs.toConsistent hs.ordered he hd).mono ?_
    intro i b' hbuilt
    obtain ⟨n, hn⟩ := hbuilt.unfolds.node
    refine ⟨hbuilt.grows.sound hs, Graph.lt_of_node? hn, hbuilt.grows.keeps, ?_⟩
    intro j kind' hj hkind
    exact (hbuilt.made hj hkind).imp_right And.left
  · obtain ⟨depth, rfl⟩ := Nat.exists_eq_add_of_lt hd
    have hnone := firstAnswer?_of_not_arithmetic (b := b) (within (kind.rank + depth)) b.rules ha
    refine yields_of_run (((run_bind (get_run b)).trans (run_bind hnone)).trans (add_run kind b)) ?_
    obtain ⟨n, hn, _⟩ := Builder.add_node hs.toConsistent kind
    refine ⟨⟨Builder.add_consistent hs.toConsistent kind, Builder.add_ordered hs.ordered hk⟩,
      Graph.lt_of_node? hn, Builder.add_keeps b kind, ?_⟩
    intro j kind' hj hkind
    rcases Builder.hasKind_of_add hkind with hold | ⟨hj, _⟩
    · exact absurd hold.lt (Nat.not_lt.mpr hj)
    · exact .inr hj

/-- At most one of the new nodes is not a constant, as such a node is the answer. -/
theorem Answered.new_nodes (h : Answered b i b') : ∃ new, b'.graph.list = b.graph.list ++ new ∧
    new.countP (·.kind.constant?.isNone) ≤ 1 := by
  obtain ⟨new, hnew⟩ := h.keeps.list_prefix
  have hmade : ∀ n ∈ new.filter (·.kind.constant?.isNone), n.id = i := by
    intro n hn
    obtain ⟨hn, hconstant⟩ := List.mem_filter.mp hn
    obtain ⟨k, hk⟩ := List.mem_iff_getElem?.mp hn
    have hnode : b'.graph.node? (b.graph.size + k) = some n := by
      rw [Graph.node?_eq, ← hnew, List.getElem?_append_right (by simp)]
      simpa using hk
    rw [h.sound.ids _ n hnode]
    rcases h.made (Nat.le_add_right _ _) ⟨n, hnode, rfl⟩ with ⟨x, hx⟩ | hi
    · rw [hx] at hconstant
      cases hconstant
    · exact hi
  refine ⟨new, hnew.symm, ?_⟩
  have hnodup : ((new.filter (·.kind.constant?.isNone)).map (·.id)).Nodup := by
    have hids : (b'.graph.list.map (·.id)).Nodup :=
      List.pairwise_map.mpr (h.sound.ascending.imp Nat.ne_of_lt)
    rw [← hnew, List.map_append] at hids
    exact hids.of_append_right.sublist (List.filter_sublist.map _)
  have hsub : (new.filter (·.kind.constant?.isNone)).map (·.id) ⊆ [i] := by
    intro j hj
    obtain ⟨n, hn, rfl⟩ := List.mem_map.mp hj
    exact List.mem_singleton.mpr (hmade n hn)
  rw [List.countP_eq_length_filter]
  simpa using hnodup.length_le_of_subset hsub

end Build

/-- Whatever the rules and whatever has happened, if operands are older than the nodes that use
them, any operation over nodes that exist is built. No depth that is allowed beyond the one that is
used makes a difference, operands stay older, and at most one node that is not a constant is
new. -/
theorem operation_terminates {options : Options} {rules : List Rule} {events : List Event}
    (hb : b = (Builder.withRules options rules).after events) (ho : b.graph.Ordered) (kind : Kind)
    (hkind : kind.Below b.graph.size) :
    ∃ i b', operation kind b = .ok i b' ∧
      (∀ depth, b.graph.size + 2 ≤ depth → within depth kind b = .ok i b') ∧
      i < b'.graph.size ∧ b'.graph.Ordered ∧
      ∃ new, b'.graph.list = b.graph.list ++ new ∧
        new.countP (·.kind.constant?.isNone) ≤ 1 := by
  have hsound : b.graph.Sound := ⟨hb ▸ Builder.consistent_after options rules events, ho⟩
  obtain ⟨i, b', hrun, ha⟩ := within_answers hsound hkind (Kind.rank_lt hkind)
  refine ⟨i, b', (run_bind (get_run b)).trans hrun, ?_, ha.exist, ha.sound.ordered, ha.new_nodes⟩
  intro depth hle
  exact within_refines hle kind b i b' hrun

/-- What is read is negated twice, while the rule for negations is the only one that looks at them,
and it is asked before and behind another. -/
def negatedTwice : Builder :=
  (Builder.withRules ⟨false, true⟩ [.negationFold, .absorb, .negationFold]).after
    ([.declare "data" 1, .read 0 0, .lift 0, .make (.binary .minus 1 0), .make (.binary .minus 1 2),
      .lift (-1)].map Event.call)

theorem list_negatedTwice : negatedTwice.graph.list = [⟨0, .read 0 0 0, none⟩,
    ⟨1, .const 0, none⟩, ⟨2, .binary .minus 1 0, none⟩, ⟨3, .binary .minus 1 2, none⟩,
    ⟨4, .const (-1), none⟩] := by
  cbv

/-- A product with minus one turns into a difference, a sum and a difference again. -/
theorem operation_terminates_negatedTwice :
    ∃ i b', operation (.binary .times 3 4) negatedTwice = .ok i b' ∧
      within 100 (.binary .times 3 4) negatedTwice = .ok i b' ∧ i < b'.graph.size ∧
      b'.graph.Ordered ∧ ∃ new, b'.graph.list = negatedTwice.graph.list ++ new ∧
        new.countP (·.kind.constant?.isNone) ≤ 1 := by
  have hconsistent : negatedTwice.graph.Consistent := Builder.consistent_after _ _ _
  have hordered : negatedTwice.graph.Ordered := by
    apply hconsistent.ordered_of_list
    rw [list_negatedTwice]
    decide
  have hsize : negatedTwice.graph.size = 5 := by decide
  have hbelow : (Kind.binary .times 3 4).Below negatedTwice.graph.size := by
    rw [hsize]
    exact (by decide : ∀ a ∈ [3, 4], a < 5)
  obtain ⟨i, b', hrun, hdepth, hrest⟩ :=
    operation_terminates (b := negatedTwice) rfl hordered (.binary .times 3 4) hbelow
  exact ⟨i, b', hrun, hdepth 100 (by rw [hsize]; decide), hrest⟩

end FlatFourier
