import Mathlib
import FlatFourier.Proofs.NormalForm
import FlatFourier.Proofs.OperatorTable

namespace FlatFourier

open Build

namespace Expr

variable {e x y z : Expr ι}

/-- What the table makes of zero minus a tree. -/
def negation (e : Expr ι) : Expr ι :=
  (binary .minus (const 0) e).tabled

/-- Neither a constant nor the negation of a constant or of a negation. -/
structure Plain (e : Expr ι) : Prop where
  notConst : ∀ v, e ≠ const v
  negated : ∀ {z y}, e = binary .minus z y → z.isZero = true →
    (∀ v, y ≠ const v) ∧ y.negated? = none

theorem minus_ne_const (z y : Expr ι) (v : Float) : binary .minus z y ≠ const v := by
  intro h
  cases h

theorem eq_const_of_isZero (h : e.isZero = true) : e = const 0 ∨ e = const (-0.0) := by
  cases e with
  | const v => simpa [isZero, isNumber] using h
  | _ => cases h

theorem not_isZero (h : ∀ v, e ≠ const v) : ¬e.isZero = true := by
  cases e with
  | const v => exact absurd rfl (h v)
  | _ => exact Bool.false_ne_true

theorem tabled_plus_of_isZero (hx : x.isZero = true) (he : ∀ v, e ≠ const v) :
    (binary .plus x e).tabled = e := by
  have hfirst := Rule.first_plus (l := x) fun _ v _ => he v
  rw [if_neg (not_isZero he), if_pos hx] at hfirst
  rw [← simplify_standard, simplify_done hfirst]

theorem tabled_plus_minus (hx : ¬x.isZero = true) (hz : z.isZero = true) :
    (binary .plus x (binary .minus z y)).tabled = (binary .minus x y).tabled := by
  have hfirst := Rule.first_plus (l := x) fun _ v _ => minus_ne_const z y v
  rw [if_neg (not_isZero (minus_ne_const z y)), if_neg hx, negated?_minus, if_pos hz] at hfirst
  rw [← simplify_standard, simplify_again hfirst, simplify_standard]

theorem tabled_minus_minus (hz : z.isZero = true) :
    (binary .minus x (binary .minus z y)).tabled = (binary .plus x y).tabled := by
  have hfirst := Rule.first_minus (l := x) fun _ v _ => minus_ne_const z y v
  rw [if_neg (not_isZero (minus_ne_const z y)), negated?_minus, if_pos hz] at hfirst
  rw [← simplify_standard, simplify_again hfirst, simplify_standard]

theorem tabled_minus_of_none (he : ∀ v, e ≠ const v) (hn : e.negated? = none) :
    (binary .minus x e).tabled = binary .minus x e := by
  have hfirst := Rule.first_minus (l := x) fun _ v _ => he v
  rw [if_neg (not_isZero he), hn] at hfirst
  rw [← simplify_standard, simplify_none hfirst]

theorem negation_minus (hz : z.isZero = true) (hy : ∀ v, y ≠ const v) :
    (binary .minus z y).negation = y := by
  rw [negation, tabled_minus_minus hz, tabled_plus_of_isZero rfl hy]

/-- A plain tree is not a negation, and then gets a zero in front of it, or it is the negation of a
tree that is not. -/
theorem Plain.cases (h : e.Plain) :
    (e.negated? = none ∧ e.negation = binary .minus (const 0) e) ∨
    ∃ z y, e = binary .minus z y ∧ z.isZero = true ∧ e.negation = y ∧
      y.negation = binary .minus (const 0) y := by
  cases hn : e.negated? with
  | none => exact .inl ⟨rfl, tabled_minus_of_none h.notConst hn⟩
  | some y =>
    obtain ⟨v, rfl, hv⟩ := eq_minus_of_negated? hn
    have hz : (const v : Expr ι).isZero = true := by
      rw [← isConstant_zero]
      exact hv
    obtain ⟨hy, hny⟩ := h.negated rfl hz
    exact .inr ⟨_, y, rfl, hz, negation_minus hz hy, tabled_minus_of_none hy hny⟩

theorem Plain.plus_negation (h : e.Plain) (hx : ¬x.isZero = true) :
    (binary .plus x e.negation).tabled = (binary .minus x e).tabled := by
  rcases h.cases with ⟨_, hn⟩ | ⟨z, y, rfl, hz, hn, _⟩
  · rw [hn, tabled_plus_minus hx rfl]
  · rw [hn, tabled_minus_minus hz]

theorem Plain.minus_negation (h : e.Plain) (hx : ¬x.isZero = true) :
    (binary .minus x e.negation).tabled = (binary .plus x e).tabled := by
  rcases h.cases with ⟨_, hn⟩ | ⟨z, y, rfl, hz, hn, _⟩
  · rw [hn, tabled_minus_minus rfl]
  · rw [hn, tabled_plus_minus hx hz]

/-- A second negation takes back the first, but the zero that it leaves is positive. -/
theorem Plain.negation_negation_iff (h : e.Plain) :
    e.negation.negation = e ↔ ¬∃ y, e = binary .minus (const (-0.0)) y := by
  rcases h.cases with ⟨hnone, hn⟩ | ⟨z, y, rfl, hz, hn, hny⟩
  · rw [hn, negation_minus rfl h.notConst]
    refine iff_of_true rfl ?_
    rintro ⟨y, rfl⟩
    cases hnone
  · rw [hn, hny]
    have hsign : (0 : Float) ≠ -0.0 := by decide
    rcases eq_const_of_isZero hz with rfl | rfl
    · simp [hsign]
    · simp [hsign]

end Expr

section Trees

variable {g : Graph} {i : Nat} {label : Node → ι} {e : Expr ι}

theorem Unfolds.isZero (h : Unfolds label g i e) (hz : e.isZero = true) : g.IsZero i := by
  rcases Expr.eq_const_of_isZero hz with he | he
  · exact .inl (h.hasKind_const_iff.mpr he)
  · exact .inr (h.hasKind_const_iff.mpr he)

theorem Unfolds.eq_minus_const_iff (h : Unfolds label g i e) :
    (∃ y, e = .binary .minus (.const x) y) ↔
      ∃ a c, g.HasKind i (.binary .minus a c) ∧ g.HasKind a (.const x) := by
  constructor
  · rintro ⟨y, rfl⟩
    cases h with
    | @binary _ n _ a c _ _ hn hk hl hr =>
      exact ⟨a, c, ⟨n, hn, hk⟩, hl.hasKind_const_iff.mpr rfl⟩
  · rintro ⟨a, c, ⟨n, hn, hk⟩, ha⟩
    cases h with
    | binary hn' hk' hl hr =>
      cases hn.symm.trans hn'
      cases hk.symm.trans hk'
      exact ⟨_, congrArg (Expr.binary .minus · _) (hl.hasKind_const_iff.mp ha)⟩
    | _ => simp_all [Kind.array?]

end Trees

namespace Builder

/-- Staged under the standard rules, with nodes shared. -/
structure Canonical (b : Builder) : Prop where
  staged : Staged b
  rules : b.rules = Rule.standard
  sharing : b.options.sharing = true

namespace Canonical

variable {b b' : Builder} {kind : Kind} {i j : Nat}

theorem call (h : b.Canonical) (c : Call) (hc : c.Stages) (hn : ∀ i ∈ c.nodes, i < b.graph.size)
    (hrun : c.run b = .ok ids b') : b'.Canonical := by
  rw [← after_ok hrun]
  obtain ⟨hoptions, hrules⟩ := (settings_lasting b.options b.rules).maintains_run c b ⟨rfl, rfl⟩
  exact ⟨.call h.staged c ⟨hc, hn⟩, hrules.trans h.rules, hoptions ▸ h.sharing⟩

theorem sound (h : b.Canonical) : b.graph.Sound :=
  h.staged.disciplined.sound

/-- A tree has one node. -/
theorem eq_of_unfolds (h : b.Canonical) (hi : Unfolds (Node.leaf Node.id) b.graph i e)
    (hj : Unfolds (Node.leaf Node.id) b.graph j e) : i = j :=
  (h.staged.indexed h.sharing).2.eq_of_unfolds h.sound.toConsistent hi hj

/-- The trees of nodes other than constants are plain. -/
theorem plain (h : b.Canonical) (hi : Unfolds label b.graph i e)
    (hc : ∀ v, ¬b.graph.HasKind i (.const v)) : e.Plain where
  notConst v hv := hc v (hi.hasKind_const_iff.mpr hv)
  negated := by
    rintro z y rfl hz
    cases hi with
    | binary hn hk hl hr =>
      have hsettled := h.staged.allSettled _ _ ⟨_, hn, hk⟩
      rw [Builder.Settled, h.rules] at hsettled
      constructor
      · rintro v rfl
        obtain ⟨w, rfl⟩ : ∃ w, z = .const w := by
          rcases Expr.eq_const_of_isZero hz with h | h <;> exact ⟨_, h⟩
        exact hsettled .constantFold (Rule.mem_standard _)
          (.foldBinary _ (hl.hasKind_const_iff.mpr rfl) (hr.hasKind_const_iff.mpr rfl))
      · refine Option.not_isSome_iff_eq_none.mp fun hs => ?_
        exact hsettled .negationFold (Rule.mem_standard _)
          (.minusNegation (hr.isNegation_iff.mpr hs))

end Canonical

end Builder

namespace Build

/-- The step answers with a node of this tree, now and as long as the nodes are kept. -/
def Makes (b : Builder) (step : Build NodeId) (e : Expr (Leaf NodeId)) : Prop :=
  ∀ b', b'.Canonical → b.graph.Keeps b'.graph → Yields step b' fun i b'' =>
    b''.Canonical ∧ b'.graph.Keeps b''.graph ∧ Unfolds (Node.leaf Node.id) b''.graph i e

/-- The first step answers with a node, and the second answers with the same node from then on,
whatever is staged in between. -/
def Foretells (b : Builder) (s t : Build NodeId) : Prop :=
  Yields s b fun i b₁ => b₁.Canonical ∧
    ∀ b₂, b₂.Canonical → b₁.graph.Keeps b₂.graph → Yields t b₂ fun j _ => j = i

/-- Two steps answer with the same node, whichever is taken first. -/
def Agree (b : Builder) (s t : Build NodeId) : Prop :=
  Foretells b s t ∧ Foretells b t s

variable {b : Builder} {s t : Build NodeId} {e e' : Expr (Leaf NodeId)} {i : Nat}

theorem Makes.bind {rest : NodeId → Build NodeId} (hs : Makes b s e)
    (hr : ∀ b' i, b.graph.Keeps b'.graph → Unfolds (Node.leaf Node.id) b'.graph i e →
      Makes b' (rest i) e') : Makes b (s >>= rest) e' := by
  intro b₀ h₀ hk₀
  refine (hs b₀ h₀ hk₀).bind ?_
  rintro i b₁ ⟨h₁, hk₁, hi⟩
  refine (hr b₁ i (hk₀.trans hk₁) hi b₁ h₁ (.refl _)).mono ?_
  rintro j b₂ ⟨h₂, hk₂, hj⟩
  exact ⟨h₂, hk₁.trans hk₂, hj⟩

theorem makes_lift (b : Builder) (x : Float) : Makes b (lift x) (.const x) := by
  intro b' h hk
  obtain ⟨i, b'', hrun, hgrows, _, hi⟩ := lift_yields (Node.leaf Node.id) h.sound.toConsistent x
  have hafter : b''.Canonical := h.call (.lift x) trivial nofun (run_bind hrun)
  exact ⟨i, b'', hrun, hafter, hgrows.keeps, hi⟩

theorem makes_operation (hs : Spells (Node.leaf Node.id) b.graph kind e)
    (hc : (Call.operation kind).Stages) : Makes b (operation kind) e.tabled := by
  intro b' h hk
  have hs := hs.keeps hk
  obtain ⟨i, b'', hrun, _, hkeeps, hi⟩ := operation_yields h.sound (.refl b') hs
  have hafter : b''.Canonical := h.call (.operation kind) hc hs.below (run_bind hrun)
  rw [h.rules, Expr.simplify_standard] at hi
  exact ⟨i, b'', hrun, hafter, hkeeps, hi⟩

theorem makes_negate (hi : Unfolds (Node.leaf Node.id) b.graph i e) :
    Makes b (negate i) e.negation := by
  refine (makes_lift b 0).bind ?_
  intro b' z hk hz
  exact makes_operation (.binary .minus hz (hi.keeps hk)) trivial

theorem Makes.foretells (hb : b.Canonical) (hs : Makes b s e) (ht : Makes b t e) :
    Foretells b s t := by
  refine (hs b hb (.refl _)).mono ?_
  rintro i b₁ ⟨h₁, hk₁, hi⟩
  refine ⟨h₁, fun b₂ h₂ hk₂ => (ht b₂ h₂ (hk₁.trans hk₂)).mono ?_⟩
  rintro j b₃ ⟨h₃, hk₃, hj⟩
  -- the first node still stands there, with the same tree as the second
  exact h₃.eq_of_unfolds hj (hi.keeps (hk₂.trans hk₃))

theorem Makes.agree (hb : b.Canonical) (hs : Makes b s e) (ht : Makes b t e) : Agree b s t :=
  ⟨hs.foretells hb ht, ht.foretells hb hs⟩

end Build

/-- To add a negation is to subtract, to subtract a negation is to add, and a second negation takes
back the first, unless that is a difference with minus zero. -/
theorem negation_canonical {b : Builder} (hb : b.Canonical) {x y : Nat} (hx : x < b.graph.size)
    (hy : y < b.graph.size) (hzero : ¬b.graph.IsZero x)
    (hconst : ∀ v, ¬b.graph.HasKind y (.const v)) :
    Agree b (do plus x (← negate y)) (minus x y) ∧
      Agree b (do minus x (← negate y)) (plus x y) ∧
      Yields (do negate (← negate y)) b fun i _ => i = y ↔
        ¬∃ c w, b.graph.HasKind y (.binary .minus c w) ∧ b.graph.HasKind c (.const (-0.0)) := by
  obtain ⟨l, hl⟩ := Unfolds.exists_of_ordered hb.sound.ordered (Node.leaf Node.id) hx
  obtain ⟨r, hr⟩ := Unfolds.exists_of_ordered hb.sound.ordered (Node.leaf Node.id) hy
  have hplain : r.Plain := hb.plain hr hconst
  have hnonzero : ¬l.isZero = true := fun h => hzero (hl.isZero h)
  have hnegate := makes_negate hr
  refine ⟨?_, ?_, ?_⟩
  · have hsum : Makes b (do plus x (← negate y)) (.tabled (.binary .plus l r.negation)) :=
      hnegate.bind fun _ _ hk hi => makes_operation (.binary .plus (hl.keeps hk) hi) trivial
    rw [hplain.plus_negation hnonzero] at hsum
    exact hsum.agree hb (makes_operation (.binary .minus hl hr) trivial)
  · have hdiff : Makes b (do minus x (← negate y)) (.tabled (.binary .minus l r.negation)) :=
      hnegate.bind fun _ _ hk hi => makes_operation (.binary .minus (hl.keeps hk) hi) trivial
    rw [hplain.minus_negation hnonzero] at hdiff
    exact hdiff.agree hb (makes_operation (.binary .plus hl hr) trivial)
  · have htwice : Makes b (do negate (← negate y)) r.negation.negation :=
      hnegate.bind fun _ _ _ hi => makes_negate hi
    refine (htwice b hb (.refl _)).mono ?_
    rintro i b' ⟨hb', hk, hi⟩
    have hy' := hr.keeps hk
    have hsame : i = y ↔ r.negation.negation = r := by
      constructor
      · rintro rfl
        exact hi.unique hy'
      · intro he
        exact hb'.eq_of_unfolds (he ▸ hi) hy'
    rw [hsame, hplain.negation_negation_iff, hr.eq_minus_const_iff]

theorem negation_canonical_oneRead :
    Agree oneRead (do plus 0 (← negate 0)) (minus 0 0) ∧
      Agree oneRead (do minus 0 (← negate 0)) (plus 0 0) ∧
      Yields (do negate (← negate 0)) oneRead fun i _ => i = 0 := by
  have hcanonical : oneRead.Canonical :=
    ⟨staged_oneRead, oneRead_settings.2, oneRead_settings.1 ▸ rfl⟩
  have hkind : ∀ kind, oneRead.graph.HasKind 0 kind → kind = .read 0 0 (oneCell.log.epoch 0) := by
    rintro kind ⟨n, hn, rfl⟩
    cases oneRead_read.symm.trans hn
    rfl
  have hconst : ∀ v, ¬oneRead.graph.HasKind 0 (.const v) := by
    intro v hv
    cases hkind _ hv
  have hzero : ¬oneRead.graph.IsZero 0 := by
    rintro (hz | hz)
    · exact hconst _ hz
    · exact hconst _ hz
  have hlt := oneRead_lt (.refl _)
  obtain ⟨hsum, hdiff, htwice⟩ := negation_canonical hcanonical hlt hlt hzero hconst
  refine ⟨hsum, hdiff, htwice.mono fun i _ hi => hi.mpr ?_⟩
  rintro ⟨c, w, hminus, _⟩
  cases hkind _ hminus

end FlatFourier
