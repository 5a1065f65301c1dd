import FlatFourier.Proofs.Reducible

namespace FlatFourier

open Build

namespace Kind

/-- Kinds whose nodes do nothing but compute. -/
def IsArithmetic : Kind → Prop
  | const _ | binary _ _ _ | unary _ _ => True
  | _ => False

/-- A bound on the operations that are built one inside another on behalf of this one. A negation
leads on to a smaller id, and a product leads to a difference first. -/
def rank : Kind → Nat
  | binary .times a b => max a b + 2
  | binary _ _ b => b + 1
  | _ => 0

theorem IsArithmetic.isPure {kind : Kind} (h : kind.IsArithmetic) : kind.isPure := by
  cases kind <;> first | rfl | cases h

theorem rank_lt {kind : Kind} (h : kind.Below n) : kind.rank < n + 2 := by
  cases kind with
  | binary op a b =>
    have ha := h a (by simp [operands])
    have hb := h b (by simp [operands])
    cases op <;> simp only [rank] <;> omega
  | _ => simp [rank]

end Kind

theorem Spells.isArithmetic (h : Spells label g kind e) : kind.IsArithmetic := by
  cases h <;> trivial

/-- In an ordered graph an arithmetic operation over nodes that exist has a tree. -/
theorem Spells.exists_of_ordered {g : Graph} (ho : g.Ordered) (label : Node → ι) {kind : Kind}
    (h : kind.IsArithmetic) (hb : kind.Below g.size) : ∃ e, Spells label g kind e := by
  have tree : ∀ a : Nat, a ∈ kind.operands → ∃ e, Unfolds label g a e :=
    fun a ha => Unfolds.exists_of_ordered ho label (hb a ha)
  cases kind with
  | const x => exact ⟨_, .const x⟩
  | binary op a b =>
    obtain ⟨l, hl⟩ := tree a (by simp [Kind.operands])
    obtain ⟨r, hr⟩ := tree b (by simp [Kind.operands])
    exact ⟨_, .binary op hl hr⟩
  | unary op a =>
    obtain ⟨e, he⟩ := tree a (by simp [Kind.operands])
    exact ⟨_, .unary op he⟩
  | _ => cases h

/-- Growth by arithmetic alone, and only by operations to which no rule applies. -/
abbrev Builder.Computes : Builder → Builder → Prop :=
  Builder.Grows fun b kind => kind.IsArithmetic ∧ b.Settled kind

/-- Growth by constants alone. -/
abbrev Builder.Lifts : Builder → Builder → Prop :=
  Builder.Grows fun _ kind => ∃ x, kind = .const x

namespace Builder.Lifts

variable {b b' : Builder}

theorem computes (h : b.Lifts b') : b.Computes b' := by
  refine Grows.mono h ?_
  intro b₁ kind hconst
  obtain ⟨x, rfl⟩ := hconst
  refine ⟨trivial, ?_⟩
  intro rule _ ha
  cases ha

theorem const_of_new {i : Nat} (h : b.Lifts b') (hi : b.graph.size ≤ i)
    (hk : b'.graph.HasKind i kind) : ∃ x, kind = .const x := by
  rcases Grows.made h hk with hold | ⟨_, _, hconst⟩
  · exact absurd hold.lt (Nat.not_lt.mpr hi)
  · exact hconst

end Builder.Lifts

/-- An operation that a rule asks for in place of another: to add a negation is to subtract, to
subtract one is to add, and a product leads to a difference from zero. -/
inductive Graph.Turns (g : Graph) : Kind → Kind → Prop where
  | plus (h : g.HasKind c (.binary .minus z y)) :
      Turns g (.binary .plus a c) (.binary .minus a y)
  | minus (h : g.HasKind c (.binary .minus z y)) :
      Turns g (.binary .minus a c) (.binary .plus a y)
  | times (h : g.HasKind z (.const 0)) (ha : a ∈ [l, r]) :
      Turns g (.binary .times l r) (.binary .minus z a)

/-- What an operation has become after any number of turns. -/
inductive Graph.Derives (g : Graph) : Kind → Kind → Prop where
  | refl : Derives g kind kind
  | turn (h : g.Turns kind kind') (h' : Derives g kind' kind'') : Derives g kind kind''

theorem Graph.Turns.keeps {g g' : Graph} (h : g.Turns kind kind') (hk : g.Keeps g') :
    g'.Turns kind kind' := by
  cases h with
  | plus h => exact .plus (h.keeps hk)
  | minus h => exact .minus (h.keeps hk)
  | times h ha => exact .times (h.keeps hk) ha

/-- How often a name has been counted. -/
def RuleCounts.count (c : RuleCounts) (name : String) : Nat :=
  (c.entries.find? fun entry => entry.1 = name).elim 0 (·.2)

/-- The rules have answered as often as before, and once more for each of these rewritings. -/
def RuleCounts.Counted (before after : RuleCounts) (ws : List (Rule × Rewrite ι)) : Prop :=
  ∀ name, after.count name = before.count name + ws.countP (·.1.name = name)

theorem RuleCounts.counted_nil (c : RuleCounts) : c.Counted c ([] : List (Rule × Rewrite ι)) :=
  fun _ => rfl

theorem RuleCounts.count_increment (c : RuleCounts) (name name' : String) :
    (c.increment name).count name' = c.count name' + if name = name' then 1 else 0 := by
  have hbump (entries : List (String × Nat)) :
      ((bump name entries).find? fun entry => entry.1 = name').elim 0 (·.2) =
        (entries.find? fun entry => entry.1 = name').elim 0 (·.2) +
          if name = name' then 1 else 0 := by
    induction entries with
    | nil => by_cases h : name = name' <;> simp [bump, h]
    | cons entry rest ih =>
      obtain ⟨other, n⟩ := entry
      by_cases hother : other = name
      · by_cases h : name = name' <;> simp [bump, hother, h]
      · by_cases h : other = name'
        · subst h
          simp [bump, hother, Ne.symm hother]
        · simpa [bump, hother, h] using ih
  exact hbump c.entries

theorem RuleCounts.Counted.cons {before after : RuleCounts} {ws : List (Rule × Rewrite ι)}
    (h : before.Counted after ws) (rule : Rule) (w : Rewrite ι) :
    before.Counted (after.increment rule.name) ((rule, w) :: ws) := by
  intro name
  rw [count_increment, h name, List.countP_cons]
  simp [Nat.add_assoc]

theorem RuleCounts.Counted.append {c₁ c₂ c₃ : RuleCounts} {ws ws' : List (Rule × Rewrite ι)}
    (h : c₁.Counted c₂ ws) (h' : c₂.Counted c₃ ws') : c₁.Counted c₃ (ws ++ ws') := by
  intro name
  rw [h' name, h name, List.countP_append, Nat.add_assoc]

/-- Between the two builders these operations have been asked for, and nothing else has been
done. -/
structure Builder.Performs (b : Builder) (asked : List (Expr ι)) (b' : Builder) : Prop where
  grows : b.Computes b'
  counted : b.tally.byRule.Counted b'.tally.byRule (asked.flatMap (Expr.rewrites b.rules))

namespace Builder.Performs

theorem refl (b : Builder) : b.Performs ([] : List (Expr ι)) b :=
  ⟨.refl, RuleCounts.counted_nil _⟩

theorem trans {b₁ b₂ b₃ : Builder} {asked asked' : List (Expr ι)} (h : b₁.Performs asked b₂)
    (h' : b₂.Performs asked' b₃) : b₁.Performs (asked ++ asked') b₃ := by
  refine ⟨h.grows.trans h'.grows, ?_⟩
  rw [List.flatMap_append]
  exact h.counted.append (h.grows.rules_eq ▸ h'.counted)

theorem keeps {b b' : Builder} {asked : List (Expr ι)} (h : b.Performs asked b') :
    b.graph.Keeps b'.graph :=
  h.grows.keeps

theorem rules_eq {b b' : Builder} {asked : List (Expr ι)} (h : b.Performs asked b') :
    b'.rules = b.rules :=
  h.grows.rules_eq

end Builder.Performs

variable {b b' : Builder} {label : Node → ι} {e : Expr ι} {i j : Nat}

/-- The node of a constant. -/
theorem lift_lifts (label : Node → ι) (hc : b.graph.Consistent) (x : Float) :
    Yields (lift x) b fun i b' => b.Lifts b' ∧ b'.tally.byRule = b.tally.byRule ∧
      Unfolds label b'.graph i (.const x) := by
  refine yields_of_run (add_run _ b) ⟨.add .refl _ ⟨x, rfl⟩ ?_, Builder.add_byRule _ _, ?_⟩
  · intro a ha
    cases ha
  · obtain ⟨n, hn, hk⟩ := Builder.add_node hc (.const x)
    exact .const hn hk

theorem lift_yields (label : Node → ι) (hc : b.graph.Consistent) (x : Float) :
    Yields (lift x) b fun i b' => b.Computes b' ∧ b'.tally.byRule = b.tally.byRule ∧
      Unfolds label b'.graph i (.const x) :=
  (lift_lifts label hc x).mono fun _ _ h => ⟨h.1.computes, h.2⟩

namespace Build

theorem isConstant_of_unfolds (h : Unfolds label b.graph i e) (x : Float) :
    isConstant i x b = .ok (e.isConstant x) b := by
  obtain ⟨n, hn⟩ := h.node
  rw [isConstant_run hn, h.constant? hn]
  rfl

theorem constant?_of_unfolds (h : Unfolds label b.graph i e) :
    constant? i b = .ok e.constant? b := by
  obtain ⟨n, hn⟩ := h.node
  rw [constant?_run hn, h.constant? hn]

theorem negated?_none (h : Unfolds label b.graph i e) (hn : e.negated? = none) :
    negated? i b = .ok none b := by
  obtain ⟨n, hi⟩ := h.node
  refine (run_bind (node_run hi)).trans ?_
  cases hk : n.kind with
  | binary op x y =>
    cases op with
    | minus =>
      cases h with
      | binary h hk' hl hr =>
        simp only [hi, Option.some.injEq] at h
        subst h
        simp only [hk, Kind.binary.injEq] at hk'
        obtain ⟨rfl, rfl, rfl⟩ := hk'
        refine (run_bind (isConstant_of_unfolds hl 0)).trans ?_
        simp only [Expr.negated?] at hn
        split at hn
        · cases hn
        · simp_all [pure, EStateM.pure]
      | _ => simp_all [Kind.array?]
    | _ => rfl
  | _ => rfl

/-- The node that is negated is older than the difference. -/
theorem negated?_some (ho : b.graph.Ordered) (h : Unfolds label b.graph i e)
    (hy : e.negated? = some y) :
    ∃ j : Nat, negated? i b = .ok (some j) b ∧ Unfolds label b.graph j y ∧ j < i ∧
      ∃ z, b.graph.HasKind i (.binary .minus z j) := by
  obtain ⟨x, rfl, hx⟩ := Expr.eq_minus_of_negated? hy
  cases h with
  | @binary _ n _ z j _ _ hi hk hl hr =>
    refine ⟨j, (run_bind (node_run hi)).trans ?_, hr, ho i n hi j (by simp [hk, Kind.operands]),
      z, n, hi, hk⟩
    simp only [hk]
    refine (run_bind (isConstant_of_unfolds hl 0)).trans ?_
    simp [Expr.isConstant, Expr.constant?, hx, pure, EStateM.pure]

end Build

/-- A rule's step does to the builder what the rewriting says of the tree. -/
def Answers (label : Node → ι) (build : Kind → Build NodeId) (kind : Kind) (b : Builder)
    (step : Build (Option NodeId)) : Option (Rewrite ι) → Prop
  | none => step b = .ok none b
  | some (.again op l r) => ∃ kind' b', b.Lifts b' ∧ b'.tally.byRule = b.tally.byRule ∧
      Spells label b'.graph kind' (.binary op l r) ∧ kind'.rank < kind.rank ∧
      b'.graph.Turns kind kind' ∧ step b = (build kind' >>= fun i => pure (some i)) b'
  | some w => Yields step b fun r b' => ∃ i, r = some i ∧ b.Lifts b' ∧
      b'.tally.byRule = b.tally.byRule ∧ Unfolds label b'.graph i w.tree

variable {build : Kind → Build NodeId} {kind : Kind} {l r : Expr ι}

theorem Answers.of_run {step step' : Build (Option NodeId)} (h : step b = step' b)
    (ha : Answers label build kind b step' w) : Answers label build kind b step w := by
  cases w with
  | none => exact h.trans ha
  | some w =>
    cases w with
    | again op l r =>
      obtain ⟨kind', b', hb, ht, hs, hr, hturn, he⟩ := ha
      exact ⟨kind', b', hb, ht, hs, hr, hturn, h.trans he⟩
    | _ =>
      obtain ⟨r, b', he, hp⟩ := ha
      exact ⟨r, b', h.trans he, hp⟩

namespace Rule

theorem answers_node (hi : Unfolds label b.graph i e) :
    Answers label build kind b (pure (some i)) (some (.done e)) :=
  yields_pure ⟨i, rfl, .refl, rfl, hi⟩

theorem answers_lift (hc : b.graph.Consistent) (x : Float) (hw : w.tree = .const x)
    (ha : ∀ op l r, w ≠ .again op l r) :
    Answers label build kind b (do return some (← lift x)) (some w) := by
  cases w with
  | again op l r => exact absurd rfl (ha op l r)
  | fold f =>
    refine (lift_lifts label hc x).bind ?_
    rintro i b' ⟨hb, ht, hu⟩
    exact yields_pure ⟨i, rfl, hb, ht, hw ▸ hu⟩
  | done e =>
    refine (lift_lifts label hc x).bind ?_
    rintro i b' ⟨hb, ht, hu⟩
    exact yields_pure ⟨i, rfl, hb, ht, hw ▸ hu⟩

theorem foldConstants_answers (hc : b.graph.Consistent) (hs : Spells label b.graph kind e) :
    Answers label build kind b (foldConstants kind) (constantFold.rewrite? e) := by
  cases hs with
  | const x => rfl
  | @binary a l c r op hl hr =>
    refine .of_run (run_bind (constant?_of_unfolds hl)) ?_
    cases l with
    | const x =>
      refine .of_run (run_bind (constant?_of_unfolds hr)) ?_
      cases r with
      | const y => exact answers_lift hc _ rfl (by simp)
      | _ => rfl
    | _ => rfl
  | @unary a t op ha =>
    refine .of_run (run_bind (constant?_of_unfolds ha)) ?_
    cases t with
    | const x => exact answers_lift hc _ rfl (by simp)
    | _ => rfl

/-- A test for a constant that goes one way or the other. -/
theorem isConstant_answers {yes no : Build (Option NodeId)} {w w' : Option (Rewrite ι)}
    (hi : Unfolds label b.graph i e) (x : Float)
    (hy : e.isConstant x = true → Answers label build kind b yes w)
    (hn : e.isConstant x = false → Answers label build kind b no w') :
    Answers label build kind b (do if ← isConstant i x then yes else no)
      (if e.isConstant x then w else w') := by
  refine .of_run (run_bind (isConstant_of_unfolds hi x)) ?_
  cases he : e.isConstant x with
  | true => exact hy he
  | false => exact hn he

theorem dropIdentity_answers (hs : Spells label b.graph kind e) :
    Answers label build kind b (dropIdentity kind) (identity.rewrite? e) := by
  cases hs with
  | const x => rfl
  | unary op ha => rfl
  | binary op hl hr =>
    cases op with
    | plus =>
      refine isConstant_answers hr 0 (fun _ => answers_node hl) fun _ => ?_
      exact isConstant_answers hl 0 (fun _ => answers_node hr) fun _ => rfl
    | minus => exact isConstant_answers hr 0 (fun _ => answers_node hl) fun _ => rfl
    | times =>
      refine isConstant_answers hr 1 (fun _ => answers_node hl) fun _ => ?_
      exact isConstant_answers hl 1 (fun _ => answers_node hr) fun _ => rfl
    | div => exact isConstant_answers hr 1 (fun _ => answers_node hl) fun _ => rfl

theorem absorbZero_answers (hc : b.graph.Consistent) (hs : Spells label b.graph kind e) :
    Answers label build kind b (absorbZero kind) (absorb.rewrite? e) := by
  cases hs with
  | const x => rfl
  | unary op ha => rfl
  | @binary a l c r op hl hr =>
    cases op with
    | times =>
      refine isConstant_answers hl 0 (fun _ => answers_lift hc 0 rfl (by simp)) fun _ => ?_
      exact isConstant_answers hr 0 (fun _ => answers_lift hc 0 rfl (by simp)) fun _ => rfl
    | _ => rfl

/-- Zero minus a node is asked for once the zero is there. -/
theorem negateBy_answers (hc : b.graph.Consistent) (hi : Unfolds label b.graph i e)
    (hr : i + 1 < kind.rank)
    (hturn : ∀ {g : Graph} {z}, g.HasKind z (.const 0) → g.Turns kind (.binary .minus z i)) :
    Answers label build kind b (do return some (← negateBy build i))
      (some (.again .minus (.const 0) e)) := by
  obtain ⟨z, b', hz, hb, ht, hu⟩ := lift_lifts label hc 0
  exact ⟨.binary .minus z i, b', hb, ht, .binary _ hu (hi.keeps hb.keeps), hr,
    hturn (hu.hasKind_const_iff.mpr rfl), run_bind_congr (run_bind hz)⟩

theorem negated?_answers {op : BinaryOp} (ho : b.graph.Ordered) (hl : Unfolds label b.graph i l)
    (hr : Unfolds label b.graph j r) (hk : j + 1 ≤ kind.rank)
    (hop : ∀ x y : Nat, (Kind.binary op x y).rank = y + 1)
    (hturn : ∀ {z y}, b.graph.HasKind j (.binary .minus z y) →
      b.graph.Turns kind (.binary op i y)) :
    Answers label build kind b
      (do
        let some y ← negated? j | return none
        return some (← build (.binary op i y)))
      (r.negated?.map (.again op l)) := by
  cases hn : r.negated? with
  | none => exact (run_bind (negated?_none hr hn)).trans rfl
  | some t =>
    obtain ⟨y, hy, hu, hlt, z, hz⟩ := negated?_some ho hr hn
    refine ⟨.binary op i y, b, .refl, rfl, .binary op hl hu, ?_, hturn hz, run_bind hy⟩
    rw [hop]
    omega

theorem foldNegation_answers (hc : b.graph.Consistent) (ho : b.graph.Ordered)
    (hs : Spells label b.graph kind e) :
    Answers label build kind b (foldNegation build kind) (negationFold.rewrite? e) := by
  cases hs with
  | const x => rfl
  | unary op ha => rfl
  | @binary a l c r op hl hr =>
    cases op with
    | plus => exact negated?_answers ho hl hr (Nat.le_refl _) (fun _ _ => rfl) .plus
    | minus => exact negated?_answers ho hl hr (Nat.le_refl _) (fun _ _ => rfl) .minus
    | times =>
      have hleft : ∀ {g : Graph} {z}, g.HasKind z (.const 0) →
          g.Turns (.binary .times a c) (.binary .minus z a) := fun hz => .times hz (by simp)
      have hright : ∀ {g : Graph} {z}, g.HasKind z (.const 0) →
          g.Turns (.binary .times a c) (.binary .minus z c) := fun hz => .times hz (by simp)
      refine isConstant_answers hr (-1) (fun _ => negateBy_answers hc hl ?_ hleft) fun _ => ?_
      · simp only [Kind.rank]
        omega
      refine isConstant_answers hl (-1) (fun _ => negateBy_answers hc hr ?_ hright) fun _ => rfl
      simp only [Kind.rank]
      omega
    | div => rfl

theorem answer?_answers (build : Kind → Build NodeId) (hc : b.graph.Consistent)
    (ho : b.graph.Ordered) (hs : Spells label b.graph kind e) (rule : Rule) :
    Answers label build kind b (rule.answer? build kind) (rule.rewrite? e) := by
  cases rule with
  | constantFold => exact foldConstants_answers hc hs
  | identity => exact dropIdentity_answers hs
  | absorb => exact absorbZero_answers hc hs
  | negationFold => exact foldNegation_answers hc ho hs

/-- The rules before the first that answers leave no trace. -/
theorem firstAnswer?_run (build : Kind → Build NodeId) (hc : b.graph.Consistent)
    (ho : b.graph.Ordered) (hs : Spells label b.graph kind e) (rules : List Rule) :
    match firstRewrite? rules e with
    | none => firstAnswer? build rules kind b = .ok none b
    | some (rule, _) => ∃ rest, firstAnswer? build rules kind b =
        (rule.answer? build kind >>= fun
          | some id => pure (some (rule, id))
          | none => firstAnswer? build rest kind) b := by
  induction rules with
  | nil => rfl
  | cons rule rules ih =>
    cases hw : rule.rewrite? e with
    | none =>
      have ha := answer?_answers build hc ho hs rule
      rw [hw] at ha
      have hskip : firstAnswer? build (rule :: rules) kind b = firstAnswer? build rules kind b :=
        run_bind ha
      simpa only [firstRewrite?, List.findSome?_cons, hw, Option.map_none, hskip] using ih
    | some w =>
      simp only [firstRewrite?, List.findSome?_cons, hw, Option.map_some]
      exact ⟨rules, rfl⟩

end Rule

namespace Build

/-- What building an operation leaves behind. At most the answer is a new node that is not a
constant, and it is the operation after some turns. -/
structure Built (label : Node → ι) (b : Builder) (kind : Kind) (e : Expr ι) (i : Nat)
    (b' : Builder) : Prop where
  grows : b.Computes b'
  made : ∀ {j kind'}, b.graph.size ≤ j → b'.graph.HasKind j kind' →
    (∃ x, kind' = .const x) ∨ j = i ∧ b'.graph.Derives kind kind'
  unfolds : Unfolds label b'.graph i (e.simplify b.rules)
  counted : b.tally.byRule.Counted b'.tally.byRule (e.rewrites b.rules)

/-- The rest of a turn once a rule has answered: the answer is counted. -/
theorem within_answered {kind : Kind} {depth : Nat} {rule : Rule} {rest : List Rule}
    (hf : Rule.firstAnswer? (within depth) b.rules kind b =
      (rule.answer? (within depth) kind >>= fun
        | some id => pure (some (rule, id))
        | none => Rule.firstAnswer? (within depth) rest kind) b)
    (ha : rule.answer? (within depth) kind b = .ok (some i) b') :
    within (depth + 1) kind b = .ok i (b'.countAnswer rule.name) := by
  refine (run_bind (get_run b)).trans ?_
  exact (run_bind (hf.trans (run_bind ha))).trans (run_bind (countAnswer_run rule.name b'))

theorem within_yields {kind : Kind} (hc : b.graph.Consistent) (ho : b.graph.Ordered)
    (hs : Spells label b.graph kind e) {depth : Nat} (hd : kind.rank < depth) :
    Yields (within depth kind) b (Built label b kind e) := by
  -- Each turn of the recursion is one rewriting: the rank goes down with the depth.
  induction depth generalizing kind e b with
  | zero => cases hd
  | succ depth ih =>
    have hf := Rule.firstAnswer?_run (within depth) hc ho hs b.rules
    have ha := Rule.answer?_answers (within depth) hc ho hs
    cases hw : Rule.firstRewrite? b.rules e with
    | none =>
      simp only [hw] at hf
      refine yields_of_run (((run_bind (get_run b)).trans (run_bind hf)).trans (add_run kind b)) ?_
      obtain ⟨n, hn, hk⟩ := Builder.add_node hc kind
      have hsettled : b.Settled kind := (Rule.firstRewrite?_eq_none_iff hs).mp hw
      refine ⟨.add .refl kind ⟨hs.isArithmetic, hsettled⟩ hs.below, ?_, ?_, ?_⟩
      · intro j kind' hj hkind
        rcases Builder.hasKind_of_add hkind with hold | ⟨rfl, rfl⟩
        · exact absurd hold.lt (Nat.not_lt.mpr hj)
        · exact .inr ⟨rfl, .refl⟩
      · rw [Expr.simplify_none hw]
        exact .of_spells hn (hk ▸ hs.keeps (Builder.add_keeps b kind))
      · rw [Expr.rewrites_none hw, Builder.add_byRule]
        exact RuleCounts.counted_nil _
    | some first =>
      obtain ⟨rule, w⟩ := first
      simp only [hw] at hf
      obtain ⟨rest, hf⟩ := hf
      have ha := ha rule
      rw [(Rule.rewrite?_of_first hw).2] at ha
      cases w with
      | fold f =>
        obtain ⟨_, b', he, i, rfl, hb, ht, hu⟩ := ha
        refine yields_of_run (within_answered hf he) ⟨.count hb.computes rule.name,
          fun hj hkind => .inl (hb.const_of_new hj hkind), ?_, ?_⟩
        · rw [Expr.simplify_fold hw]
          exact hu
        · rw [Expr.rewrites_fold hw]
          exact (ht ▸ RuleCounts.counted_nil _ : b.tally.byRule.Counted b'.tally.byRule []).cons _ _
      | done t =>
        obtain ⟨_, b', he, i, rfl, hb, ht, hu⟩ := ha
        refine yields_of_run (within_answered hf he) ⟨.count hb.computes rule.name,
          fun hj hkind => .inl (hb.const_of_new hj hkind), ?_, ?_⟩
        · rw [Expr.simplify_done hw]
          exact hu
        · rw [Expr.rewrites_done hw]
          exact (ht ▸ RuleCounts.counted_nil _ : b.tally.byRule.Counted b'.tally.byRule []).cons _ _
      | again op l r =>
        obtain ⟨kind', b₁, hb, ht, hs', hr, hturn, he⟩ := ha
        obtain ⟨i, b₂, hi, hbuilt⟩ := ih (hb.consistent hc) (hb.ordered ho) hs' (by omega)
        refine yields_of_run (within_answered hf (he.trans (run_bind hi))) ?_
        refine ⟨.count (hb.computes.trans hbuilt.grows) rule.name, ?_, ?_, ?_⟩
        · intro j kind'' hj hkind
          rcases Nat.lt_or_ge j b₁.graph.size with hlt | hge
          · exact .inl (hb.const_of_new hj (hbuilt.grows.keeps.hasKind_of_lt hlt hkind))
          · rcases hbuilt.made hge hkind with hconst | ⟨hj, hd⟩
            · exact .inl hconst
            · exact .inr ⟨hj, .turn (hturn.keeps hbuilt.grows.keeps) hd⟩
        · rw [Expr.simplify_again hw, ← hb.rules_eq]
          exact hbuilt.unfolds
        · rw [Expr.rewrites_again hw, ← ht, ← hb.rules_eq]
          exact hbuilt.counted.cons rule _

theorem operation_built {kind : Kind} (hb : b.graph.Sound) (hs : Spells label b.graph kind e) :
    Yields (operation kind) b (Built label b kind e) :=
  (within_yields hb.toConsistent hb.ordered hs (Kind.rank_lt hs.below)).of_run_eq
    (run_bind (get_run b))

/-- Building an operation over nodes of a sound graph succeeds, and its node computes what the rules
make of the operation's tree. The operations asked for so far are carried along. -/
theorem operation_yields {b₁ : Builder} {asked : List (Expr ι)} {kind : Kind}
    (hb : b.graph.Sound) (h : b.Performs asked b₁) (hs : Spells label b₁.graph kind e) :
    Yields (operation kind) b₁ fun i b₂ => b.Performs (asked ++ [e]) b₂ ∧
      b₁.graph.Keeps b₂.graph ∧ Unfolds label b₂.graph i (e.simplify b.rules) := by
  refine (operation_built (h.grows.sound hb) hs).mono ?_
  intro i b₂ hbuilt
  have hp : b₁.Performs [e] b₂ := ⟨hbuilt.grows, by simpa using hbuilt.counted⟩
  refine ⟨h.trans hp, hp.keeps, ?_⟩
  rw [← h.rules_eq]
  exact hbuilt.unfolds

end Build

end FlatFourier
