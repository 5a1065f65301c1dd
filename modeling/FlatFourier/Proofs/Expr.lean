import FlatFourier.Proofs.Growth

namespace FlatFourier

/-- A node with all that it is computed from. Reads and writes are leaves. -/
inductive Expr (ι : Type) where
  | const (x : Float)
  | binary (op : BinaryOp) (l r : Expr ι)
  | unary (op : UnaryOp) (a : Expr ι)
  | result (a : Expr ι)
  | leaf (x : ι)

/-- An operation on constants that is replaced by its value. -/
inductive Fold where
  | binary (op : BinaryOp) (x y : Float)
  | unary (op : UnaryOp) (x : Float)
deriving DecidableEq, Repr

def Fold.value : Fold → Float
  | .binary op x y => op.apply x y
  | .unary op x => op.fold x

/-- What a rule makes of an operation: a constant, a tree that stands, or another operation, for
which the rules are asked again. -/
inductive Rewrite (ι : Type) where
  | fold (f : Fold)
  | done (e : Expr ι)
  | again (op : BinaryOp) (l r : Expr ι)

namespace Rewrite

def tree : Rewrite ι → Expr ι
  | fold f => .const f.value
  | done e => e
  | again op l r => .binary op l r

def fold? : Rewrite ι → Option Fold
  | fold f => some f
  | _ => none

end Rewrite

namespace Expr

def constant? : Expr ι → Option Float
  | const x => some x
  | _ => none

/-- Whether a tree is a constant equal to the given number; the zeros are equal. -/
def isConstant (e : Expr ι) (x : Float) : Bool :=
  e.constant?.any (· == x)

/-- The tree that is subtracted from zero. -/
def negated? : Expr ι → Option (Expr ι)
  | binary .minus z y => if z.isConstant 0 then some y else none
  | _ => none

/-- A measure that every rewriting lowers. A product with minus one turns into a difference with
zero of the same size, so products weigh more. -/
def weight : Expr ι → Nat
  | const _ => 1
  | binary .times l r => l.weight + r.weight + 2
  | binary _ l r => l.weight + r.weight + 1
  | unary _ a => a.weight + 1
  | result a => a.weight + 1
  | leaf _ => 1

theorem eq_const_of_isConstant {e : Expr ι} (h : e.isConstant x = true) :
    ∃ y, e = const y ∧ (y == x) = true := by
  cases e with
  | const y => exact ⟨y, rfl, by simpa [isConstant, constant?] using h⟩
  | _ => simp [isConstant, constant?] at h

theorem eq_minus_of_negated? {e : Expr ι} (h : e.negated? = some y) :
    ∃ x, e = binary .minus (const x) y ∧ (x == 0) = true := by
  unfold negated? at h
  split at h
  · split at h
    · rename_i hz
      obtain ⟨x, rfl, hx⟩ := eq_const_of_isConstant hz
      cases h
      exact ⟨x, rfl, hx⟩
    · cases h
  · cases h

end Expr

namespace Rule

/-- What a single rule makes of an operation. -/
def rewrite? : Rule → Expr ι → Option (Rewrite ι)
  | constantFold, .binary op (.const x) (.const y) => some (.fold (.binary op x y))
  | constantFold, .unary op (.const x) => some (.fold (.unary op x))
  | identity, .binary .plus l r =>
    if r.isConstant 0 then some (.done l) else if l.isConstant 0 then some (.done r) else none
  | identity, .binary .minus l r => if r.isConstant 0 then some (.done l) else none
  | identity, .binary .times l r =>
    if r.isConstant 1 then some (.done l) else if l.isConstant 1 then some (.done r) else none
  | identity, .binary .div l r => if r.isConstant 1 then some (.done l) else none
  | absorb, .binary .times l r =>
    if l.isConstant 0 then some (.done (.const 0))
    else if r.isConstant 0 then some (.done (.const 0))
    else none
  | negationFold, .binary .plus l r => r.negated?.map (.again .minus l)
  | negationFold, .binary .minus l r => r.negated?.map (.again .plus l)
  | negationFold, .binary .times l r =>
    if r.isConstant (-1) then some (.again .minus (.const 0) l)
    else if l.isConstant (-1) then some (.again .minus (.const 0) r)
    else none
  | _, _ => none

/-- The first rule that has something to say, and what it says. -/
def firstRewrite? (rules : List Rule) (e : Expr ι) : Option (Rule × Rewrite ι) :=
  rules.findSome? fun rule => (rule.rewrite? e).map (rule, ·)

/-- All ways in which an operation turns into another one. -/
theorem rewrite?_again {rule : Rule} {e : Expr ι} (h : rule.rewrite? e = some (.again op l r)) :
    (∃ x, e = .binary .plus l (.binary .minus (.const x) r) ∧ op = .minus ∧ (x == 0) = true) ∨
    (∃ x, e = .binary .minus l (.binary .minus (.const x) r) ∧ op = .plus ∧ (x == 0) = true) ∨
    (∃ x, (e = .binary .times r (.const x) ∨ e = .binary .times (.const x) r) ∧ op = .minus ∧
      l = .const 0 ∧ (x == -1) = true) := by
  unfold rewrite? at h
  split at h
  all_goals try (repeat' split at h) <;> cases h
  · obtain ⟨y, hy, he⟩ := Option.map_eq_some_iff.mp h
    obtain ⟨x, rfl, hx⟩ := Expr.eq_minus_of_negated? hy
    cases he
    exact .inl ⟨x, rfl, rfl, hx⟩
  · obtain ⟨y, hy, he⟩ := Option.map_eq_some_iff.mp h
    obtain ⟨x, rfl, hx⟩ := Expr.eq_minus_of_negated? hy
    cases he
    exact .inr (.inl ⟨x, rfl, rfl, hx⟩)
  · rename_i hr
    obtain ⟨x, rfl, hx⟩ := Expr.eq_const_of_isConstant hr
    exact .inr (.inr ⟨x, .inl rfl, rfl, rfl, hx⟩)
  · rename_i hl _
    obtain ⟨x, rfl, hx⟩ := Expr.eq_const_of_isConstant hl
    exact .inr (.inr ⟨x, .inr rfl, rfl, rfl, hx⟩)

theorem weight_lt_of_again {rule : Rule} {e : Expr ι}
    (h : rule.rewrite? e = some (.again op l r)) : (Expr.binary op l r).weight < e.weight := by
  rcases rewrite?_again h with ⟨x, rfl, rfl, _⟩ | ⟨x, rfl, rfl, _⟩ | ⟨x, rfl | rfl, rfl, rfl, _⟩
  all_goals simp only [Expr.weight]; omega

theorem rewrite?_of_first {rules : List Rule} {e : Expr ι}
    (h : firstRewrite? rules e = some (rule, w)) : rule ∈ rules ∧ rule.rewrite? e = some w := by
  obtain ⟨r, hr, hw⟩ := List.exists_of_findSome?_eq_some h
  obtain ⟨w', hw', he⟩ := Option.map_eq_some_iff.mp hw
  cases he
  exact ⟨hr, hw'⟩

end Rule

namespace Expr

/-- The rewritings that building an operation goes through, in order. -/
def rewrites (rules : List Rule) (e : Expr ι) : List (Rule × Rewrite ι) :=
  match _h : Rule.firstRewrite? rules e with
  | none => []
  | some (rule, .again op l r) => (rule, .again op l r) :: rewrites rules (.binary op l r)
  | some first => [first]
termination_by e.weight
decreasing_by exact Rule.weight_lt_of_again (Rule.rewrite?_of_first _h).2

/-- What the rules leave of an operation. -/
def simplify (rules : List Rule) (e : Expr ι) : Expr ι :=
  ((rewrites rules e).getLast?.map (·.2.tree)).getD e

/-- The operations on constants that are replaced by their values on the way. -/
def folds (rules : List Rule) (e : Expr ι) : List Fold :=
  (rewrites rules e).filterMap (·.2.fold?)

theorem rewrites_none {e : Expr ι} (h : Rule.firstRewrite? rules e = none) :
    rewrites rules e = [] := by
  rw [rewrites]
  split <;> simp_all

theorem rewrites_fold {e : Expr ι} (h : Rule.firstRewrite? rules e = some (rule, .fold f)) :
    rewrites rules e = [(rule, .fold f)] := by
  rw [rewrites]
  split <;> simp_all

theorem rewrites_done {e : Expr ι} (h : Rule.firstRewrite? rules e = some (rule, .done e')) :
    rewrites rules e = [(rule, .done e')] := by
  rw [rewrites]
  split <;> simp_all

theorem rewrites_again {e : Expr ι}
    (h : Rule.firstRewrite? rules e = some (rule, .again op l r)) :
    rewrites rules e = (rule, .again op l r) :: rewrites rules (.binary op l r) := by
  rw [rewrites]
  split
  · simp_all
  · simp_all
  · rename_i hn he
    rw [h] at he
    cases he
    exact absurd rfl (hn _ _ _ _)

theorem simplify_none {e : Expr ι} (h : Rule.firstRewrite? rules e = none) :
    simplify rules e = e := by
  simp [simplify, rewrites_none h]

theorem simplify_fold {e : Expr ι} (h : Rule.firstRewrite? rules e = some (rule, .fold f)) :
    simplify rules e = .const f.value := by
  simp [simplify, rewrites_fold h, Rewrite.tree]

theorem simplify_done {e : Expr ι} (h : Rule.firstRewrite? rules e = some (rule, .done e')) :
    simplify rules e = e' := by
  simp [simplify, rewrites_done h, Rewrite.tree]

theorem simplify_again {e : Expr ι}
    (h : Rule.firstRewrite? rules e = some (rule, .again op l r)) :
    simplify rules e = simplify rules (.binary op l r) := by
  simp only [simplify, rewrites_again h, List.getLast?_cons]
  cases (rewrites rules (.binary op l r)).getLast? <;> rfl

theorem folds_again {e : Expr ι}
    (h : Rule.firstRewrite? rules e = some (rule, .again op l r)) :
    folds rules e = folds rules (.binary op l r) := by
  simp [folds, rewrites_again h, Rewrite.fold?]

@[simp] theorem simplify_nil (e : Expr ι) : simplify [] e = e :=
  simplify_none rfl

end Expr

/-- The tree below a node. Leaves are told apart by a label of their node. -/
inductive Unfolds (label : Node → ι) (g : Graph) : Nat → Expr ι → Prop where
  | const (h : g.node? i = some n) (hk : n.kind = .const x) : Unfolds label g i (.const x)
  | binary (h : g.node? i = some n) (hk : n.kind = .binary op a b)
      (hl : Unfolds label g a l) (hr : Unfolds label g b r) : Unfolds label g i (.binary op l r)
  | unary (h : g.node? i = some n) (hk : n.kind = .unary op a)
      (ha : Unfolds label g a e) : Unfolds label g i (.unary op e)
  | result (h : g.node? i = some n) (hk : n.kind = .result a)
      (ha : Unfolds label g a e) : Unfolds label g i (.result e)
  | leaf (h : g.node? i = some n) (hk : n.kind.array?.isSome) :
      Unfolds label g i (.leaf (label n))

/-- The tree of an arithmetic operation over nodes of a graph. -/
inductive Spells (label : Node → ι) (g : Graph) : Kind → Expr ι → Prop where
  | const (x : Float) : Spells label g (.const x) (.const x)
  | binary (op : BinaryOp) (hl : Unfolds label g a l) (hr : Unfolds label g b r) :
      Spells label g (.binary op a b) (.binary op l r)
  | unary (op : UnaryOp) (ha : Unfolds label g a e) :
      Spells label g (.unary op a) (.unary op e)

variable {g g' : Graph} {i a b : Nat} {n : Node}

namespace Unfolds

theorem keeps (h : Unfolds label g i e) (hk : g.Keeps g') :
    Unfolds label g' i e := by
  induction h with
  | const h hn => exact .const (hk _ _ h) hn
  | binary h hn _ _ ihl ihr => exact .binary (hk _ _ h) hn ihl ihr
  | unary h hn _ ih => exact .unary (hk _ _ h) hn ih
  | result h hn _ ih => exact .result (hk _ _ h) hn ih
  | leaf h hn => exact .leaf (hk _ _ h) hn

theorem node (h : Unfolds label g i e) : ∃ n, g.node? i = some n := by
  cases h <;> exact ⟨_, ‹_›⟩

theorem lt (h : Unfolds label g i e) : i < g.size := by
  obtain ⟨n, hn⟩ := h.node
  exact Graph.lt_of_node? hn

/-- A node has one tree. -/
theorem unique (h : Unfolds label g i e) (h' : Unfolds label g i e') : e = e' := by
  induction h generalizing e' with
  | const hn hk => cases h' <;> simp_all [Kind.array?]
  | binary hn hk _ _ ihl ihr =>
    cases h' with
    | binary hn' hk' hl hr =>
      simp only [hn, Option.some.injEq] at hn'
      subst hn'
      simp only [hk, Kind.binary.injEq] at hk'
      obtain ⟨rfl, rfl, rfl⟩ := hk'
      rw [ihl hl, ihr hr]
    | _ => simp_all [Kind.array?]
  | unary hn hk _ ih =>
    cases h' with
    | unary hn' hk' ha =>
      simp only [hn, Option.some.injEq] at hn'
      subst hn'
      simp only [hk, Kind.unary.injEq] at hk'
      obtain ⟨rfl, rfl⟩ := hk'
      rw [ih ha]
    | _ => simp_all [Kind.array?]
  | result hn hk _ ih =>
    cases h' with
    | result hn' hk' ha =>
      simp only [hn, Option.some.injEq] at hn'
      subst hn'
      simp only [hk, Kind.result.injEq] at hk'
      subst hk'
      rw [ih ha]
    | _ => simp_all [Kind.array?]
  | leaf hn hk => cases h' <;> simp_all [Kind.array?]

theorem constant? (h : Unfolds label g i e) (hn : g.node? i = some n) :
    n.kind.constant? = e.constant? := by
  cases h with
  | leaf h' hk =>
    simp only [hn, Option.some.injEq] at h'
    subst h'
    cases hk' : n.kind <;> simp_all [Kind.array?, Kind.constant?, Expr.constant?]
  | _ => simp_all [Kind.constant?, Expr.constant?]

theorem of_spells (h : g.node? i = some n) (hs : Spells label g n.kind e) :
    Unfolds label g i e := by
  generalize hk : n.kind = kind at hs
  cases hs with
  | const x => exact .const h hk
  | binary op hl hr => exact .binary h hk hl hr
  | unary op ha => exact .unary h hk ha

/-- In an ordered graph every node has a tree. -/
theorem exists_of_ordered (ho : g.Ordered) (label : Node → ι) {i : Nat}
    (h : i < g.size) : ∃ e, Unfolds label g i e := by
  induction i using Nat.strongRecOn with
  | ind i ih =>
    obtain ⟨n, hn⟩ := Graph.node?_of_lt h
    have sub : ∀ a : Nat, a ∈ n.kind.operands → ∃ e, Unfolds label g a e := by
      intro a ha
      have hlt := ho i n hn a ha
      exact ih a hlt (Nat.lt_trans hlt h)
    cases hk : n.kind with
    | const x => exact ⟨_, .const hn hk⟩
    | binary op a b =>
      obtain ⟨l, hl⟩ := sub a (by simp [hk, Kind.operands])
      obtain ⟨r, hr⟩ := sub b (by simp [hk, Kind.operands])
      exact ⟨_, .binary hn hk hl hr⟩
    | unary op a =>
      obtain ⟨e, he⟩ := sub a (by simp [hk, Kind.operands])
      exact ⟨_, .unary hn hk he⟩
    | read a c epoch => exact ⟨.leaf (label n), .leaf hn (by simp [hk, Kind.array?])⟩
    | write a c v => exact ⟨.leaf (label n), .leaf hn (by simp [hk, Kind.array?])⟩
    | result a =>
      obtain ⟨e, he⟩ := sub a (by simp [hk, Kind.operands])
      exact ⟨_, .result hn hk he⟩

end Unfolds

namespace Spells

theorem keeps (h : Spells label g kind e) (hk : g.Keeps g') :
    Spells label g' kind e := by
  cases h with
  | const x => exact .const x
  | binary op hl hr => exact .binary op (hl.keeps hk) (hr.keeps hk)
  | unary op ha => exact .unary op (ha.keeps hk)

theorem below (h : Spells label g kind e) : kind.Below g.size := by
  intro a ha
  cases h with
  | const x => cases ha
  | binary op hl hr =>
    simp only [Kind.operands, List.mem_cons, List.not_mem_nil, or_false] at ha
    rcases ha with rfl | rfl
    · exact hl.lt
    · exact hr.lt
  | unary op hu =>
    simp only [Kind.operands, List.mem_cons, List.not_mem_nil, or_false] at ha
    subst ha
    exact hu.lt

end Spells

end FlatFourier
