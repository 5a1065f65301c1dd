import FlatFourier.Proofs.Sharing
import FlatFourier.Proofs.Staging

namespace FlatFourier

open Build

theorem Rule.mem_standard (rule : Rule) : rule ∈ Rule.standard := by
  cases rule <;> simp [standard]

namespace Graph

/-- The constant zero, of either sign. -/
def IsZero (g : Graph) (i : NodeId) : Prop :=
  g.HasKind i (.const 0) ∨ g.HasKind i (.const (-0.0))

/-- No operation of the graph is one that the standard rules would change. -/
structure Normal (g : Graph) : Prop where
  operations : ∀ {i op a b}, g.HasKind i (.binary op a b) →
    ¬∃ x y, g.HasKind a (.const x) ∧ g.HasKind b (.const y)
  functions : ∀ {i op a}, g.HasKind i (.unary op a) → ¬∃ x, g.HasKind a (.const x)
  sums : ∀ {i a b}, g.HasKind i (.binary .plus a b) → ¬g.IsZero a ∧ ¬g.IsZero b
  differences : ∀ {i a b}, g.HasKind i (.binary .minus a b) → ¬g.IsZero b
  products : ∀ {i a b}, g.HasKind i (.binary .times a b) → ∀ j ∈ [a, b],
    ¬g.IsZero j ∧ ¬g.HasKind j (.const 1) ∧ ¬g.HasKind j (.const (-1))
  quotients : ∀ {i a b}, g.HasKind i (.binary .div a b) → ¬g.HasKind b (.const 1)
  negations : ∀ {i op a b}, op = .plus ∨ op = .minus → g.HasKind i (.binary op a b) →
    ¬∃ z y, g.HasKind b (.binary .minus z y) ∧ g.IsZero z

variable {g : Graph} {i : Nat}

theorem Ordered.below (h : g.Ordered) (hn : g.node? i = some n) : n.kind.Below g.size :=
  fun j hj => Nat.lt_trans (h i n hn j hj) (lt_of_node? hn)

theorem IsZero.isConstant (h : g.IsZero i) : g.IsConstant i 0 := by
  rcases h with h | h
  · exact ⟨0, h, rfl⟩
  · exact ⟨-0.0, h, rfl⟩

/-- A graph is normal if no rule applies to any of its nodes. -/
theorem Normal.of_not_applies (h : ∀ {i kind}, g.HasKind i kind → ∀ rule : Rule,
    ¬rule.Applies g kind) : g.Normal where
  operations := by
    intro i op a b hk hconst
    obtain ⟨x, y, ha, hb⟩ := hconst
    exact h hk .constantFold (.foldBinary op ha hb)
  functions := by
    intro i op a hk hconst
    obtain ⟨x, ha⟩ := hconst
    exact h hk .constantFold (.foldUnary op ha)
  sums := by
    intro i a b hk
    have hno := h hk .identity
    exact ⟨fun ha => hno (.plusZero (.inl ha.isConstant)),
      fun hb => hno (.plusZero (.inr hb.isConstant))⟩
  differences hk hb := h hk .identity (.minusZero hb.isConstant)
  products := by
    intro i a b hk j hj
    have either : ∀ {x}, g.IsConstant j x → g.IsConstant a x ∨ g.IsConstant b x := by
      intro x hx
      rcases List.mem_pair.mp hj with rfl | rfl
      · exact .inl hx
      · exact .inr hx
    refine ⟨?_, ?_, ?_⟩
    · intro hz
      exact h hk .absorb (.timesZero (either hz.isConstant))
    · intro hone
      exact h hk .identity (.timesOne (either ⟨1, hone, rfl⟩))
    · intro hneg
      exact h hk .negationFold (.timesNegOne (either ⟨-1, hneg, rfl⟩))
  quotients hk hb := h hk .identity (.divOne ⟨1, hb, rfl⟩)
  negations := by
    intro i op a b hop hk hneg
    obtain ⟨z, y, hb, hz⟩ := hneg
    have hneg : g.IsNegation b := ⟨z, y, hb, hz.isConstant⟩
    have hno := h hk .negationFold
    rcases hop with rfl | rfl
    · exact hno (.plusNegation hneg)
    · exact hno (.minusNegation hneg)

end Graph

namespace Builder

/-- No rule of the builder applies to any of its nodes. -/
def AllSettled (b : Builder) : Prop :=
  ∀ i kind, b.graph.HasKind i kind → b.Settled kind

variable {b b' : Builder}

theorem Settled.keeps (h : b.Settled kind) (hk : b.graph.Keeps b'.graph) (hr : b'.rules = b.rules)
    (ho : b.graph.Ordered) (hb : kind.Below b.graph.size) : b'.Settled kind := by
  intro rule hmem happ
  rw [hr] at hmem
  exact h rule hmem (happ.of_keeps hk ho hb)

theorem AllSettled.add (h : b.AllSettled) (ho : b.graph.Ordered) (hk : b.Settled kind)
    (hb : kind.Below b.graph.size) : (b.add kind).2.AllSettled := by
  have hkeeps := b.add_keeps kind
  have hrules := b.add_rules kind
  intro i kind' hi
  rcases hasKind_of_add hi with hold | ⟨_, rfl⟩
  · obtain ⟨n, hn, rfl⟩ := hold
    exact (h i n.kind ⟨n, hn, rfl⟩).keeps hkeeps hrules ho (ho.below hn)
  · exact hk.keeps hkeeps hrules ho hb

theorem AllSettled.grows (h : b.AllSettled) (ho : b.graph.Ordered)
    (hg : Grows AdmitsSettled b b') : b'.AllSettled := by
  induction hg with
  | refl => exact h
  | add hg kind hk hb ih => exact ih.add (hg.ordered ho) hk.2 hb
  | count _ name ih => exact ih

theorem AllSettled.evolves (h : b.AllSettled) (ho : b.graph.Ordered) (he : b.Evolves b') :
    b'.AllSettled := by
  rcases he with ⟨name, length, _, rfl⟩ | hg
  · exact h
  · exact h.grows ho hg

end Builder

/-- Staging leaves no node to which a rule applies. -/
theorem Staged.allSettled (h : Staged b) : b.AllSettled := by
  induction h with
  | start options rules =>
    intro i kind hk
    obtain ⟨n, hn, _⟩ := hk
    cases hn
  | @call b hb c hc ih =>
    have hd : b.Disciplined := Staged.disciplined hb
    exact ih.evolves hd.ordered (c.evolves_of_stages hd hc.1 hc.2)

namespace Build

variable {b : Builder} {kind : Kind}

/-- Rules have nothing to say about reads, writes and results. -/
theorem firstAnswer?_of_not_arithmetic (build : Kind → Build NodeId) (rules : List Rule)
    (hk : ¬kind.IsArithmetic) : Rule.firstAnswer? build rules kind b = .ok none b := by
  induction rules with
  | nil => rfl
  | cons rule rules ih =>
    have hno : rule.answer? build kind = pure none := by
      cases kind with
      | read a c e => cases rule <;> rfl
      | write a c v => cases rule <;> rfl
      | result v => cases rule <;> rfl
      | _ => exact absurd trivial hk
    unfold Rule.firstAnswer?
    rw [hno]
    exact ih

theorem firstAnswer?_of_settled (build : Kind → Build NodeId) (hs : b.graph.Sound)
    (hk : b.Settled kind) (hb : kind.Below b.graph.size) :
    Rule.firstAnswer? build b.rules kind b = .ok none b := by
  by_cases ha : kind.IsArithmetic
  · obtain ⟨e, he⟩ := Spells.exists_of_ordered hs.ordered Node.id ha hb
    have hrun := Rule.firstAnswer?_run build hs.toConsistent hs.ordered he b.rules
    rw [(Rule.firstRewrite?_eq_none_iff he).mpr hk] at hrun
    exact hrun
  · exact firstAnswer?_of_not_arithmetic build b.rules ha

/-- An operation to which no rule applies gets its own node. -/
theorem operation_of_settled (hs : b.graph.Sound) (hk : b.Settled kind)
    (hb : kind.Below b.graph.size) : operation kind b = .ok (b.add kind).1 (b.add kind).2 := by
  have hnone := firstAnswer?_of_settled (within (b.graph.size + 1)) hs hk hb
  refine (run_bind (get_run b)).trans ((run_bind (get_run b)).trans ?_)
  exact (run_bind hnone).trans (add_run kind b)

end Build

/-- To add the operation of a pure node leads to that node, if the table knows it. -/
theorem Graph.Indexed.add_eq {b : Builder} {i : Nat} (h : b.graph.Indexed)
    (hs : b.graph.sharing = true) (hn : b.graph.node? i = some n) (hp : n.kind.isPure = true) :
    b.add n.kind = (i, { b with tally := { b.tally with reused := b.tally.reused + 1 } }) := by
  have hx : b.graph.existing? n.kind = some i := by
    rw [Graph.existing?, if_pos (by simp [shares, hs, hp])]
    exact h i n hn hp
  rcases Builder.add_cases b n.kind with ⟨j, hj, he⟩ | ⟨hnone, _⟩
  · rw [he, Option.some.inj (hj.symm.trans hx)]
  · cases hnone.symm.trans hx

/-- Staging under the standard rules leaves a graph in normal form. With sharing, to ask once more
for the operation of any node but a write gives back that node, and nothing is new but the count. -/
theorem staged_normal (h : Staged b) (hr : b.rules = Rule.standard) :
    b.graph.Normal ∧ (b.options.sharing = true → ∀ (i : Nat) n, b.graph.node? i = some n →
      n.kind.isPure = true → operation n.kind b =
        .ok i { b with tally := { b.tally with reused := b.tally.reused + 1 } }) := by
  have hsettled := h.allSettled
  refine ⟨.of_not_applies ?_, ?_⟩
  · intro i kind hk rule
    exact hsettled i kind hk rule (hr ▸ rule.mem_standard)
  · intro hs i n hn hp
    have hd := h.disciplined
    obtain ⟨hshares, hindexed⟩ := h.indexed hs
    have hadd := hindexed.add_eq hshares hn hp
    rw [operation_of_settled hd.sound (hsettled i n.kind ⟨n, hn, rfl⟩) (hd.ordered.below hn), hadd]

/-- What is read is doubled, overwritten, negated and transformed. -/
def doubled : Builder :=
  [Call.operation (.binary .plus 0 0), .write 0 0 0, .negate 0, .transform [⟨0, 0⟩, ⟨0, 0⟩]].foldl
    (fun b c => c.run.after b) oneRead

theorem doubled_normal :
    Staged doubled ∧ doubled.rules = Rule.standard ∧ doubled.graph.Normal ∧
      ∃ n, doubled.graph.node? 0 = some n ∧ operation n.kind doubled = .ok 0
        { doubled with
          tally := { doubled.tally with reused := doubled.tally.reused + 1 } } := by
  have hstaged : Staged doubled := by
    refine staged_oneRead.calls _ ?_
    intro c hc b hk
    refine ⟨?_, fun i hi => ?_⟩
    · revert c
      simp [Call.Stages]
    · have hzero : i = 0 := by
        revert c
        simp +contextual [Call.nodes, Sample.nodes, Kind.operands]
      exact hzero ▸ oneRead_lt hk
  obtain ⟨hoptions, hrules⟩ : doubled.options = ⟨true, true⟩ ∧ doubled.rules = Rule.standard :=
    (settings_lasting _ _).calls oneRead_settings _
  have hk : oneRead.graph.Keeps doubled.graph := (keeps_lasting _).calls (.refl _) _
  obtain ⟨n, hn, hp⟩ := oneRead_node
  obtain ⟨hnormal, hagain⟩ := staged_normal hstaged hrules
  exact ⟨hstaged, hrules, hnormal, n, hk 0 n hn, hagain (hoptions ▸ rfl) 0 n (hk 0 n hn) hp⟩

end FlatFourier
