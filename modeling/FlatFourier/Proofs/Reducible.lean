import FlatFourier.Proofs.Expr

namespace FlatFourier

namespace Graph

def HasKind (g : Graph) (i : NodeId) (kind : Kind) : Prop :=
  ∃ n, g.node? i = some n ∧ n.kind = kind

/-- A constant equal to the given number; the zeros are equal. -/
def IsConstant (g : Graph) (i : NodeId) (x : Float) : Prop :=
  ∃ y, g.HasKind i (.const y) ∧ (y == x) = true

/-- The difference of zero and another node. -/
def IsNegation (g : Graph) (i : NodeId) : Prop :=
  ∃ z y, g.HasKind i (.binary .minus z y) ∧ g.IsConstant z 0

end Graph

/-- A rule has an answer for an operation over nodes of the graph. -/
inductive Rule.Applies (g : Graph) : Rule → Kind → Prop where
  | foldBinary (op : BinaryOp) (ha : g.HasKind a (.const x)) (hb : g.HasKind b (.const y)) :
      Applies g .constantFold (.binary op a b)
  | foldUnary (op : UnaryOp) (ha : g.HasKind a (.const x)) : Applies g .constantFold (.unary op a)
  | plusZero (h : g.IsConstant a 0 ∨ g.IsConstant b 0) : Applies g .identity (.binary .plus a b)
  | minusZero (h : g.IsConstant b 0) : Applies g .identity (.binary .minus a b)
  | timesOne (h : g.IsConstant a 1 ∨ g.IsConstant b 1) : Applies g .identity (.binary .times a b)
  | divOne (h : g.IsConstant b 1) : Applies g .identity (.binary .div a b)
  | timesZero (h : g.IsConstant a 0 ∨ g.IsConstant b 0) : Applies g .absorb (.binary .times a b)
  | plusNegation (h : g.IsNegation b) : Applies g .negationFold (.binary .plus a b)
  | minusNegation (h : g.IsNegation b) : Applies g .negationFold (.binary .minus a b)
  | timesNegOne (h : g.IsConstant a (-1) ∨ g.IsConstant b (-1)) :
      Applies g .negationFold (.binary .times a b)

/-- No rule of the builder has an answer for the operation. -/
def Builder.Settled (b : Builder) (kind : Kind) : Prop :=
  ∀ rule ∈ b.rules, ¬rule.Applies b.graph kind

namespace Graph

variable {g g' : Graph} {i : NodeId}

/-- What a node of the smaller graph is, is not changed by growth. -/
theorem Keeps.hasKind_of_lt (hk : g.Keeps g') (hi : i < g.size) (h : g'.HasKind i kind) :
    g.HasKind i kind := by
  obtain ⟨n, hn⟩ := node?_of_lt hi
  obtain ⟨n', hn', hkind⟩ := h
  cases (hk i n hn).symm.trans hn'
  exact ⟨n, hn, hkind⟩

theorem Keeps.isConstant_of_lt (hk : g.Keeps g') (hi : i < g.size) (h : g'.IsConstant i x) :
    g.IsConstant i x := by
  obtain ⟨y, hy, he⟩ := h
  exact ⟨y, hk.hasKind_of_lt hi hy, he⟩

theorem Keeps.isNegation_of_lt (hk : g.Keeps g') (ho : g.Ordered) (hi : i < g.size)
    (h : g'.IsNegation i) : g.IsNegation i := by
  obtain ⟨z, y, hm, hz⟩ := h
  have hm := hk.hasKind_of_lt hi hm
  obtain ⟨n, hn, hkind⟩ := hm
  have hlt : z < i := ho i n hn z (by simp [hkind, Kind.operands])
  exact ⟨z, y, ⟨n, hn, hkind⟩, hk.isConstant_of_lt (Nat.lt_trans hlt hi) hz⟩

theorem HasKind.keeps (h : g.HasKind i kind) (hk : g.Keeps g') : g'.HasKind i kind := by
  obtain ⟨n, hn, hkind⟩ := h
  exact ⟨n, hk i n hn, hkind⟩

theorem HasKind.lt (h : g.HasKind i kind) : i < g.size := by
  obtain ⟨n, hn, _⟩ := h
  exact lt_of_node? hn

end Graph

namespace Builder

variable {b b' : Builder}

/-- A node is an old one, or the one that the operation gets. -/
theorem hasKind_of_add {i : Nat} (h : (b.add kind).2.graph.HasKind i kind') :
    b.graph.HasKind i kind' ∨ i = (b.add kind).1 ∧ kind' = kind := by
  obtain ⟨n, hn, rfl⟩ := h
  rcases add_cases b kind with ⟨id, _, he⟩ | ⟨_, he⟩ <;> rw [he] at hn ⊢
  · exact .inl ⟨n, hn, rfl⟩
  · rw [Graph.append_node?] at hn
    split at hn
    · cases hn
      exact .inr ⟨‹_›, rfl⟩
    · exact .inl ⟨n, hn, rfl⟩

/-- A node is an old one, or its kind was admitted on the way. -/
theorem Grows.made {i : Nat} (h : Grows admits b b') (hi : b'.graph.HasKind i kind) :
    b.graph.HasKind i kind ∨ ∃ b₁, Grows admits b b₁ ∧ admits b₁ kind := by
  induction h with
  | refl => exact .inl hi
  | @add b₁ hg kind' ha _ ih =>
    rcases hasKind_of_add hi with hold | ⟨_, rfl⟩
    · exact ih hold
    · exact .inr ⟨b₁, hg, ha⟩
  | count _ name ih => exact ih hi

end Builder

/-- No rule gets an answer by later nodes. -/
theorem Rule.Applies.of_keeps {g g' : Graph} {rule : Rule} {kind : Kind}
    (h : rule.Applies g' kind) (hk : g.Keeps g') (ho : g.Ordered) (hb : kind.Below g.size) :
    rule.Applies g kind := by
  have left : ∀ {op : BinaryOp} {a c : Nat}, (Kind.binary op a c).Below g.size → a < g.size :=
    fun hb => hb _ (by simp [Kind.operands])
  have right : ∀ {op : BinaryOp} {a c : Nat}, (Kind.binary op a c).Below g.size → c < g.size :=
    fun hb => hb _ (by simp [Kind.operands])
  have either : ∀ {op : BinaryOp} {a c : Nat} {x : Float}, (Kind.binary op a c).Below g.size →
      (g'.IsConstant a x ∨ g'.IsConstant c x) → g.IsConstant a x ∨ g.IsConstant c x :=
    fun hb h => h.imp (hk.isConstant_of_lt (left hb)) (hk.isConstant_of_lt (right hb))
  cases h with
  | foldBinary op ha hc =>
    exact .foldBinary op (hk.hasKind_of_lt (left hb) ha) (hk.hasKind_of_lt (right hb) hc)
  | foldUnary op ha =>
    exact .foldUnary op (hk.hasKind_of_lt (hb _ (by simp [Kind.operands])) ha)
  | plusZero h => exact .plusZero (either hb h)
  | minusZero h => exact .minusZero (hk.isConstant_of_lt (right hb) h)
  | timesOne h => exact .timesOne (either hb h)
  | divOne h => exact .divOne (hk.isConstant_of_lt (right hb) h)
  | timesZero h => exact .timesZero (either hb h)
  | plusNegation h => exact .plusNegation (hk.isNegation_of_lt ho (right hb) h)
  | minusNegation h => exact .minusNegation (hk.isNegation_of_lt ho (right hb) h)
  | timesNegOne h => exact .timesNegOne (either hb h)

section Trees

variable {g : Graph} {i : NodeId} {label : Node → ι} {e : Expr ι}

theorem Unfolds.hasKind_const_iff (h : Unfolds label g i e) :
    g.HasKind i (.const x) ↔ e = .const x := by
  constructor
  · rintro ⟨n, hn, hk⟩
    exact h.unique (.const hn hk)
  · rintro rfl
    cases h with
    | const hn hk => exact ⟨_, hn, hk⟩

theorem Unfolds.isConstant_iff (h : Unfolds label g i e) :
    g.IsConstant i x ↔ e.isConstant x = true := by
  constructor
  · rintro ⟨y, hy, he⟩
    rw [h.hasKind_const_iff.mp hy]
    simpa [Expr.isConstant, Expr.constant?] using he
  · intro hc
    obtain ⟨y, he, hy⟩ := Expr.eq_const_of_isConstant hc
    exact ⟨y, h.hasKind_const_iff.mpr he, hy⟩

theorem Unfolds.isNegation_iff (h : Unfolds label g i e) :
    g.IsNegation i ↔ e.negated?.isSome = true := by
  constructor
  · rintro ⟨z, y, ⟨n, hn, hk⟩, hz⟩
    cases h with
    | binary hn' hk' hl hr =>
      cases hn.symm.trans hn'
      cases hk.symm.trans hk'
      simp [Expr.negated?, hl.isConstant_iff.mp hz]
    | _ => simp_all [Kind.array?]
  · intro hs
    obtain ⟨y, hy⟩ := Option.isSome_iff_exists.mp hs
    obtain ⟨x, rfl, hx⟩ := Expr.eq_minus_of_negated? hy
    cases h with
    | binary hn hk hl hr =>
      exact ⟨_, _, ⟨_, hn, hk⟩, x, hl.hasKind_const_iff.mpr rfl, hx⟩

theorem Rule.Applies.rewrites {rule : Rule} {kind : Kind} (h : rule.Applies g kind)
    (hs : Spells label g kind e) : (rule.rewrite? e).isSome = true := by
  cases h with
  | foldBinary op ha hb =>
    cases hs with
    | binary _ hl hr => rw [hl.hasKind_const_iff.mp ha, hr.hasKind_const_iff.mp hb]; rfl
  | foldUnary op ha =>
    cases hs with
    | unary _ hu => rw [hu.hasKind_const_iff.mp ha]; rfl
  | plusZero h | timesOne h | timesZero h | timesNegOne h =>
    cases hs with
    | binary _ hl hr =>
      rw [hl.isConstant_iff, hr.isConstant_iff] at h
      grind [rewrite?]
  | minusZero h | divOne h =>
    cases hs with
    | binary _ hl hr => simp [rewrite?, hr.isConstant_iff.mp h]
  | plusNegation h | minusNegation h =>
    cases hs with
    | binary _ hl hr => simpa [rewrite?] using hr.isNegation_iff.mp h

theorem Rule.applies_of_rewrites {rule : Rule} {kind : Kind} (hs : Spells label g kind e)
    (h : (rule.rewrite? e).isSome = true) : rule.Applies g kind := by
  cases hs with
  | const x => cases rule <;> simp [rewrite?] at h
  | @unary a t op ha =>
    cases rule with
    | constantFold =>
      cases t with
      | const x => exact .foldUnary op (ha.hasKind_const_iff.mpr rfl)
      | _ => simp [rewrite?] at h
    | _ => simp [rewrite?] at h
  | @binary a l b r op hl hr =>
    cases rule with
    | constantFold =>
      cases l with
      | const x =>
        cases r with
        | const y =>
          exact .foldBinary op (hl.hasKind_const_iff.mpr rfl) (hr.hasKind_const_iff.mpr rfl)
        | _ => simp [rewrite?] at h
      | _ => simp [rewrite?] at h
    | identity =>
      cases op with
      | plus => exact .plusZero (by rw [hl.isConstant_iff, hr.isConstant_iff]; grind [rewrite?])
      | minus => exact .minusZero (by rw [hr.isConstant_iff]; grind [rewrite?])
      | times => exact .timesOne (by rw [hl.isConstant_iff, hr.isConstant_iff]; grind [rewrite?])
      | div => exact .divOne (by rw [hr.isConstant_iff]; grind [rewrite?])
    | absorb =>
      cases op with
      | times => exact .timesZero (by rw [hl.isConstant_iff, hr.isConstant_iff]; grind [rewrite?])
      | _ => simp [rewrite?] at h
    | negationFold =>
      cases op with
      | plus => exact .plusNegation (hr.isNegation_iff.mpr (by simpa [rewrite?] using h))
      | minus => exact .minusNegation (hr.isNegation_iff.mpr (by simpa [rewrite?] using h))
      | times =>
        exact .timesNegOne (by rw [hl.isConstant_iff, hr.isConstant_iff]; grind [rewrite?])
      | div => simp [rewrite?] at h

/-- The rules of a list leave a tree alone exactly if none of them applies to the operation. -/
theorem Rule.firstRewrite?_eq_none_iff {rules : List Rule} {kind : Kind}
    (hs : Spells label g kind e) :
    firstRewrite? rules e = none ↔ ∀ rule ∈ rules, ¬rule.Applies g kind := by
  simp only [firstRewrite?, List.findSome?_eq_none_iff, Option.map_eq_none_iff]
  refine forall₂_congr fun rule _ => ⟨fun hn ha => ?_, fun hn => ?_⟩
  · simpa [hn] using ha.rewrites hs
  · cases hw : rule.rewrite? e with
    | none => rfl
    | some w => exact absurd (applies_of_rewrites hs (by simp [hw])) hn

end Trees

end FlatFourier
