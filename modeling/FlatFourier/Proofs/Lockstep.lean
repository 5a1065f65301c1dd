import Mathlib.Data.List.Forall2
import FlatFourier.Proofs.Calls
import FlatFourier.Proofs.Discipline
import FlatFourier.Proofs.Simplify

namespace FlatFourier

open Build

/-- What tells leaves apart: a read by its cell and epoch, a write by a mark of its node. -/
inductive Leaf (μ : Type) where
  | read (array : ArrayId) (index epoch : Nat)
  | write (mark : μ)
deriving DecidableEq, Repr

namespace Node

def leaf (mark : Node → μ) (n : Node) : Leaf μ :=
  match n.kind with
  | .read a c e => .read a c e
  | _ => .write (mark n)

/-- The array that is written, and the number among its writes. -/
def order (n : Node) : Option ArrayId × Option Nat :=
  (n.kind.array?, n.seq)

end Node

/-- Two nodes, each of its own graph, have one tree. -/
def SameTree (g h : Graph) (i j : NodeId) : Prop :=
  ∃ e, Unfolds (Node.leaf Node.order) g i e ∧ Unfolds (Node.leaf Node.order) h j e

/-- One operation over corresponding nodes. -/
inductive Kind.Rel (same : NodeId → NodeId → Prop) : Kind → Kind → Prop where
  | const (x : Float) : Rel same (.const x) (.const x)
  | binary (op : BinaryOp) (hl : same a a') (hr : same b b') :
      Rel same (.binary op a b) (.binary op a' b')
  | unary (op : UnaryOp) (ha : same a a') : Rel same (.unary op a) (.unary op a')
  | read (array : ArrayId) (index epoch : Nat) :
      Rel same (.read array index epoch) (.read array index epoch)
  | write (array : ArrayId) (index : Nat) (hv : same v v') :
      Rel same (.write array index v) (.write array index v')
  | result (hv : same v v') : Rel same (.result v) (.result v')

/-- Entries of two logs for one write: the same number among the writes to the same array, the same
cell, and values with one tree. -/
def Write.Same (g h : Graph) (w w' : Write) : Prop :=
  w.array = w'.array ∧ w.seq = w'.seq ∧ ∃ c v v',
    g.node? w.node = some ⟨w.node, .write w.array c v, some w.seq⟩ ∧
    h.node? w'.node = some ⟨w'.node, .write w'.array c v', some w'.seq⟩ ∧ SameTree g h v v'

/-- Builders that differ in nothing but the numbering of nodes and in what they share. -/
structure Twins (l r : Builder) : Prop where
  rules : l.rules = r.rules
  arrays : l.arrays = r.arrays
  left : l.graph.Sound
  right : r.graph.Sound
  epoch : ∀ a, l.log.epoch a = r.log.epoch a
  entries : List.Forall₂ (Write.Same l.graph r.graph) l.log.entries.toList r.log.entries.toList
  simplified : l.tally.simplified = r.tally.simplified
  byRule : l.tally.byRule = r.tally.byRule
  writes : l.tally.writes = r.tally.writes
  made : l.tally.created + l.tally.reused = r.tally.created + r.tally.reused

/-- The second pair are twins that have grown from the first pair. -/
structure Twins.Grown (l r l' r' : Builder) : Prop where
  twins : Twins l' r'
  left : l.graph.Keeps l'.graph
  right : r.graph.Keeps r'.graph

/-- Both runs succeed with corresponding results or fail for the same cause, and leave twins. -/
inductive Lockstep (l r : Builder) (same : Graph → Graph → α → β → Prop) :
    EStateM.Result Error Builder α → EStateM.Result Error Builder β → Prop where
  | ok (h : Twins.Grown l r l' r') (hs : same l'.graph r'.graph x y) :
      Lockstep l r same (.ok x l') (.ok y r')
  | error (h : Twins.Grown l r l' r') (e : Error) : Lockstep l r same (.error e l') (.error e r')

variable {g g' h h' : Graph} {i j : Nat} {l r l' r' : Builder} {kind kind' : Kind}

namespace SameTree

theorem keeps (hs : SameTree g h i j) (hg : g.Keeps g') (hh : h.Keeps h') : SameTree g' h' i j := by
  obtain ⟨e, hi, hj⟩ := hs
  exact ⟨e, hi.keeps hg, hj.keeps hh⟩

theorem lt (hs : SameTree g h i j) : i < g.size ∧ j < h.size := by
  obtain ⟨e, hi, hj⟩ := hs
  exact ⟨hi.lt, hj.lt⟩

/-- Nodes of one operation over corresponding nodes have one tree. Of writes also the numbers have
to be the same. -/
theorem of_rel {n m : Node} (hn : g.node? i = some n) (hm : h.node? j = some m)
    (hk : n.kind.Rel (SameTree g h) m.kind) (hq : n.seq = m.seq ∨ n.kind.isPure) :
    SameTree g h i j := by
  generalize hkn : n.kind = k at hk
  generalize hkm : m.kind = k' at hk
  cases hk with
  | const x => exact ⟨_, .const hn hkn, .const hm hkm⟩
  | binary op hl hr =>
    obtain ⟨e, ha, ha'⟩ := hl
    obtain ⟨e', hb, hb'⟩ := hr
    exact ⟨_, .binary hn hkn ha hb, .binary hm hkm ha' hb'⟩
  | unary op ha =>
    obtain ⟨e, ha, ha'⟩ := ha
    exact ⟨_, .unary hn hkn ha, .unary hm hkm ha'⟩
  | read a c epoch =>
    have hleaf : n.leaf Node.order = m.leaf Node.order := by simp [Node.leaf, hkn, hkm]
    refine ⟨_, .leaf hn (by simp [hkn, Kind.array?]), ?_⟩
    rw [hleaf]
    exact .leaf hm (by simp [hkm, Kind.array?])
  | write a c hv =>
    have hq : n.seq = m.seq := by simpa [hkn, Kind.isPure] using hq
    have hleaf : n.leaf Node.order = m.leaf Node.order := by
      simp [Node.leaf, Node.order, hkn, hkm, hq, Kind.array?]
    refine ⟨_, .leaf hn (by simp [hkn, Kind.array?]), ?_⟩
    rw [hleaf]
    exact .leaf hm (by simp [hkm, Kind.array?])
  | result hv =>
    obtain ⟨e, hv, hv'⟩ := hv
    exact ⟨_, .result hn hkn hv, .result hm hkm hv'⟩

end SameTree

namespace Kind.Rel

variable {same same' : NodeId → NodeId → Prop}

theorem mono (hk : kind.Rel same kind') (hm : ∀ i j, same i j → same' i j) :
    kind.Rel same' kind' := by
  cases hk with
  | const x => exact .const x
  | binary op hl hr => exact .binary op (hm _ _ hl) (hm _ _ hr)
  | unary op ha => exact .unary op (hm _ _ ha)
  | read a c e => exact .read a c e
  | write a c hv => exact .write a c (hm _ _ hv)
  | result hv => exact .result (hm _ _ hv)

theorem isPure_eq (hk : kind.Rel same kind') : kind.isPure = kind'.isPure := by
  cases hk <;> rfl

theorem below (hk : kind.Rel (SameTree g h) kind') : kind.Below g.size ∧ kind'.Below h.size := by
  cases hk with
  | const x => exact ⟨nofun, nofun⟩
  | read a c e => exact ⟨nofun, nofun⟩
  | binary op hl hr =>
    constructor
    · intro i hi
      rcases List.mem_pair.mp hi with rfl | rfl
      · exact hl.lt.1
      · exact hr.lt.1
    · intro i hi
      rcases List.mem_pair.mp hi with rfl | rfl
      · exact hl.lt.2
      · exact hr.lt.2
  | unary op hv | write a c hv | result hv =>
    constructor
    · intro i hi
      cases List.mem_singleton.mp hi
      exact hv.lt.1
    · intro i hi
      cases List.mem_singleton.mp hi
      exact hv.lt.2

end Kind.Rel

theorem Write.Same.keeps {w w' : Write} (hs : w.Same g h w') (hg : g.Keeps g') (hh : h.Keeps h') :
    w.Same g' h' w' := by
  obtain ⟨ha, hq, c, v, v', hn, hn', hv⟩ := hs
  exact ⟨ha, hq, c, v, v', hg _ _ hn, hh _ _ hn', hv.keeps hg hh⟩

namespace Twins

/-- Twins at the start, under any options. -/
theorem withRules (options options' : Options) (rules : List Rule) :
    Twins (.withRules options rules) (.withRules options' rules) where
  rules := rfl
  arrays := rfl
  left := ⟨Graph.consistent_empty _, nofun⟩
  right := ⟨Graph.consistent_empty _, nofun⟩
  epoch _ := rfl
  entries := .nil
  simplified := rfl
  byRule := rfl
  writes := rfl
  made := rfl

theorem grown_self (hw : Twins l r) : Grown l r l r :=
  ⟨hw, .refl _, .refl _⟩

theorem count (hw : Twins l r) (name : String) :
    Twins (l.countAnswer name) (r.countAnswer name) :=
  { hw with
    simplified := congrArg (· + 1) hw.simplified
    byRule := congrArg (·.increment name) hw.byRule }

theorem declare (hw : Twins l r) (name : String) (length : Nat) :
    Twins (l.declare name length).2 (r.declare name length).2 :=
  { hw with arrays := congrArg (·.push ⟨name, length⟩) hw.arrays }

theorem numberFor_eq (hw : Twins l r) (hk : kind.Rel same kind') :
    l.numberFor kind = r.numberFor kind' := by
  cases hk with
  | write a c hv => exact congrArg some (hw.epoch a)
  | _ => rfl

/-- The nodes that corresponding operations get have one tree. -/
theorem sameTree_add (hw : Twins l r) (hk : kind.Rel (SameTree l.graph r.graph) kind') :
    SameTree (l.add kind).2.graph (r.add kind').2.graph (l.add kind).1 (r.add kind').1 := by
  obtain ⟨seq, hn, hseq⟩ := Builder.add_record hw.left.toConsistent kind
  obtain ⟨seq', hm, hseq'⟩ := Builder.add_record hw.right.toConsistent kind'
  refine .of_rel hn hm (hk.mono fun i j hs => hs.keeps (l.add_keeps kind) (r.add_keeps kind')) ?_
  cases hp : kind.isPure with
  | true => exact .inr rfl
  | false =>
    have hp' : kind'.isPure = false := hk.isPure_eq ▸ hp
    exact .inl ((hseq hp).trans ((hw.numberFor_eq hk).trans (hseq' hp').symm))

theorem epoch_add (hw : Twins l r) (hk : kind.Rel same kind') (a : ArrayId) :
    (l.add kind).2.log.epoch a = (r.add kind').2.log.epoch a := by
  rw [Builder.add_log, Builder.add_log, Builder.epoch_enter _ _ _ none,
    Builder.epoch_enter _ _ _ none, hw.epoch a]
  cases hk <;> rfl

theorem entries_add (hw : Twins l r) (hk : kind.Rel (SameTree l.graph r.graph) kind') :
    List.Forall₂ (Write.Same (l.add kind).2.graph (r.add kind').2.graph)
      (l.add kind).2.log.entries.toList (r.add kind').2.log.entries.toList := by
  have hl := l.add_keeps kind
  have hr := r.add_keeps kind'
  rw [Builder.add_log, Builder.add_log, Builder.entries_enter,
    Builder.entries_enter]
  refine List.rel_append (hw.entries.imp fun w w' hs => hs.keeps hl hr) ?_
  cases hk with
  | @write v v' a c hv =>
    obtain ⟨seq, hn, hseq⟩ := Builder.add_record hw.left.toConsistent (.write a c v)
    obtain ⟨seq', hm, hseq'⟩ := Builder.add_record hw.right.toConsistent (.write a c v')
    obtain rfl := hseq rfl
    obtain rfl := hseq' rfl
    exact .cons ⟨rfl, hw.epoch a, c, v, v', hn, hm, hv.keeps hl hr⟩ .nil
  | _ => exact .nil

theorem add (hw : Twins l r) (hk : kind.Rel (SameTree l.graph r.graph) kind') :
    Grown l r (l.add kind).2 (r.add kind').2 := by
  refine ⟨?_, l.add_keeps kind, r.add_keeps kind'⟩
  obtain ⟨hbelow, hbelow'⟩ := hk.below
  constructor
  · rw [Builder.add_rules, Builder.add_rules, hw.rules]
  · rw [Builder.add_arrays, Builder.add_arrays, hw.arrays]
  · exact ⟨Builder.add_consistent hw.left.toConsistent kind,
      Builder.add_ordered hw.left.ordered hbelow⟩
  · exact ⟨Builder.add_consistent hw.right.toConsistent kind',
      Builder.add_ordered hw.right.ordered hbelow'⟩
  · exact hw.epoch_add hk
  · exact hw.entries_add hk
  · rw [Builder.add_simplified, Builder.add_simplified, hw.simplified]
  · rw [Builder.add_byRule, Builder.add_byRule, hw.byRule]
  · rw [Builder.add_writes, Builder.add_writes, hw.writes, hk.isPure_eq]
  · rw [Builder.add_made, Builder.add_made, hw.made]

theorem Grown.trans {l₁ r₁ l₂ r₂ l₃ r₃ : Builder} (hg : Grown l₁ r₁ l₂ r₂)
    (hg' : Grown l₂ r₂ l₃ r₃) : Grown l₁ r₁ l₃ r₃ :=
  ⟨hg'.twins, hg.left.trans hg'.left, hg.right.trans hg'.right⟩

/-- What corresponded before still corresponds. -/
theorem Grown.same (hg : Grown l r l' r') (hs : SameTree l.graph r.graph i j) :
    SameTree l'.graph r'.graph i j :=
  hs.keeps hg.left hg.right

end Twins

namespace Lockstep

variable {same : Graph → Graph → α → β → Prop} {same' : Graph → Graph → γ → δ → Prop}

theorem of_grown {p : EStateM.Result Error Builder α} {q : EStateM.Result Error Builder β}
    (hg : Twins.Grown l r l' r') (h : Lockstep l' r' same p q) : Lockstep l r same p q := by
  cases h with
  | ok hg' hs => exact .ok (hg.trans hg') hs
  | error hg' e => exact .error (hg.trans hg') e

theorem pure {x : α} {y : β} (hw : Twins l r) (hs : same l.graph r.graph x y) :
    Lockstep l r same ((Pure.pure x : Build α) l) ((Pure.pure y : Build β) r) :=
  .ok hw.grown_self hs

theorem throw (hw : Twins l r) (e : Error) :
    Lockstep l r same ((MonadExcept.throw e : Build α) l) ((MonadExcept.throw e : Build β) r) :=
  .error hw.grown_self e

/-- Steps that leave the state alone. -/
theorem look {s : Build α} {t : Build β} (hw : Twins l r) (hl : s l = .ok x l) (hr : t r = .ok y r)
    (hs : same l.graph r.graph x y) : Lockstep l r same (s l) (t r) := by
  rw [hl, hr]
  exact .ok hw.grown_self hs

theorem bind {s : Build α} {t : Build β} {rest : α → Build γ} {rest' : β → Build δ}
    (h : Lockstep l r same (s l) (t r))
    (hr : ∀ {l' r' x y}, Twins.Grown l r l' r' → same l'.graph r'.graph x y →
      Lockstep l' r' same' (rest x l') (rest' y r')) :
    Lockstep l r same' ((s >>= rest) l) ((t >>= rest') r) := by
  generalize hp : s l = p at h
  generalize hq : t r = q at h
  cases h with
  | ok hg hs =>
    rw [run_bind hp, run_bind hq]
    exact (hr hg hs).of_grown hg
  | error hg e =>
    rw [run_bind_error hp, run_bind_error hq]
    exact .error hg e

theorem get_bind {rest : Builder → Build γ} {rest' : Builder → Build δ}
    (h : Lockstep l r same' (rest l l) (rest' r r)) :
    Lockstep l r same' ((get >>= rest) l) ((get >>= rest') r) := by
  rw [run_bind (get_run l), run_bind (get_run r)]
  exact h

end Lockstep

namespace Twins

theorem add_lockstep (hw : Twins l r) (hk : kind.Rel (SameTree l.graph r.graph) kind') :
    Lockstep l r SameTree (Build.add kind l) (Build.add kind' r) :=
  .ok (hw.add hk) (hw.sameTree_add hk)

theorem lift_lockstep (hw : Twins l r) (x : Float) :
    Lockstep l r SameTree (lift x l) (lift x r) :=
  hw.add_lockstep (.const x)

theorem countAnswer_lockstep (hw : Twins l r) (name : String) :
    Lockstep l r (fun _ _ => Eq) (countAnswer name l) (countAnswer name r) :=
  .ok ⟨hw.count name, .refl _, .refl _⟩ rfl

theorem constant?_lockstep (hw : Twins l r) (hs : SameTree l.graph r.graph i j) :
    Lockstep l r (fun _ _ => Eq) (constant? i l) (constant? j r) := by
  obtain ⟨e, hi, hj⟩ := hs
  exact .look hw (constant?_of_unfolds hi) (constant?_of_unfolds hj) rfl

/-- The node that is negated is older, on both sides. -/
theorem negated?_lockstep (hw : Twins l r) (hs : SameTree l.graph r.graph i j) :
    Lockstep l r (fun g h => Option.Rel fun y y' => SameTree g h y y' ∧ y < i ∧ y' < j)
      (negated? i l) (negated? j r) := by
  obtain ⟨e, hi, hj⟩ := hs
  cases hn : e.negated? with
  | none => exact .look hw (negated?_none hi hn) (negated?_none hj hn) .none
  | some t =>
    obtain ⟨y, hy, hu, hlt, _⟩ := negated?_some hw.left.ordered hi hn
    obtain ⟨y', hy', hu', hlt', _⟩ := negated?_some hw.right.ordered hj hn
    exact .look hw hy hy' (.some ⟨⟨t, hu, hu'⟩, hlt, hlt'⟩)

end Twins

/-- A test for a constant goes the same way. -/
theorem test_lockstep {yes no : Build α} {yes' no' : Build β}
    (hs : SameTree l.graph r.graph i j) (x : Float)
    (hy : Lockstep l r same (yes l) (yes' r)) (hn : Lockstep l r same (no l) (no' r)) :
    Lockstep l r same ((do if ← isConstant i x then yes else no : Build α) l)
      ((do if ← isConstant j x then yes' else no' : Build β) r) := by
  obtain ⟨e, hi, hj⟩ := hs
  rw [run_bind (isConstant_of_unfolds hi x), run_bind (isConstant_of_unfolds hj x)]
  cases e.isConstant x with
  | true => exact hy
  | false => exact hn

/-- Answers of rules: none on both sides, or corresponding nodes. -/
abbrev SameAnswer (g h : Graph) : Option NodeId → Option NodeId → Prop :=
  Option.Rel (SameTree g h)

/-- The same with the rules that have answered, which have to be the same. -/
abbrev SameRuling (g h : Graph) : Option (Rule × NodeId) → Option (Rule × NodeId) → Prop :=
  Option.Rel fun p q => p.1 = q.1 ∧ SameTree g h p.2 q.2

/-- The step runs in lockstep, and its result counts as an answer. -/
theorem Lockstep.answer {s t : Build NodeId} (h : Lockstep l r SameTree (s l) (t r)) :
    Lockstep l r SameAnswer ((do return some (← s) : Build (Option NodeId)) l)
      ((do return some (← t) : Build (Option NodeId)) r) :=
  h.bind fun hg hs => .pure hg.twins (.some hs)

section Rules

variable (hw : Twins l r) (hk : kind.Rel (SameTree l.graph r.graph) kind')
include hw hk

theorem foldConstants_lockstep :
    Lockstep l r SameAnswer (Rule.foldConstants kind l) (Rule.foldConstants kind' r) := by
  cases hk with
  | binary op hl hr =>
    refine (hw.constant?_lockstep hl).bind ?_
    rintro l' r' x _ hg rfl
    cases x with
    | none => exact .pure hg.twins .none
    | some x =>
      refine (hg.twins.constant?_lockstep (hg.same hr)).bind ?_
      rintro l' r' y _ hg rfl
      cases y with
      | none => exact .pure hg.twins .none
      | some y => exact (hg.twins.lift_lockstep _).answer
  | unary op ha =>
    refine (hw.constant?_lockstep ha).bind ?_
    rintro l' r' x _ hg rfl
    cases x with
    | none => exact .pure hg.twins .none
    | some x => exact (hg.twins.lift_lockstep _).answer
  | _ => exact .pure hw .none

theorem dropIdentity_lockstep :
    Lockstep l r SameAnswer (Rule.dropIdentity kind l) (Rule.dropIdentity kind' r) := by
  cases hk with
  | binary op hl hr =>
    have keep {i j : NodeId} (hs : SameTree l.graph r.graph i j) : Lockstep l r SameAnswer
        ((pure (some i) : Build (Option NodeId)) l) ((pure (some j) : Build (Option NodeId)) r) :=
      .pure hw (.some hs)
    have leave : Lockstep l r SameAnswer ((pure none : Build (Option NodeId)) l)
        ((pure none : Build (Option NodeId)) r) :=
      .pure hw .none
    cases op with
    | plus => exact test_lockstep hr 0 (keep hl) (test_lockstep hl 0 (keep hr) leave)
    | minus => exact test_lockstep hr 0 (keep hl) leave
    | times => exact test_lockstep hr 1 (keep hl) (test_lockstep hl 1 (keep hr) leave)
    | div => exact test_lockstep hr 1 (keep hl) leave
  | _ => exact .pure hw .none

theorem absorbZero_lockstep :
    Lockstep l r SameAnswer (Rule.absorbZero kind l) (Rule.absorbZero kind' r) := by
  cases hk with
  | binary op hl hr =>
    cases op with
    | times =>
      have zero := (hw.lift_lockstep 0).answer
      exact test_lockstep hl 0 zero (test_lockstep hr 0 zero (.pure hw .none))
    | _ => exact .pure hw .none
  | _ => exact .pure hw .none

end Rules

/-- Operations of smaller rank are built in lockstep. -/
def BuiltAlike (build build' : Kind → Build NodeId) (rank rank' : Nat) : Prop :=
  ∀ {l r kind kind'}, Twins l r → Kind.Rel (SameTree l.graph r.graph) kind kind' →
    kind.rank < rank → kind'.rank < rank' → Lockstep l r SameTree (build kind l) (build' kind' r)

section Building

variable {build build' : Kind → Build NodeId} (hb : BuiltAlike build build' kind.rank kind'.rank)

theorem negateBy_lockstep (hb : BuiltAlike build build' n n') (hw : Twins l r)
    (hs : SameTree l.graph r.graph i j) (hi : i + 1 < n) (hj : j + 1 < n') :
    Lockstep l r SameTree (Rule.negateBy build i l) (Rule.negateBy build' j r) :=
  (hw.lift_lockstep 0).bind fun hg hz => hb hg.twins (.binary .minus hz (hg.same hs)) hi hj

include hb

theorem foldNegation_lockstep (hw : Twins l r)
    (hk : kind.Rel (SameTree l.graph r.graph) kind') :
    Lockstep l r SameAnswer (Rule.foldNegation build kind l)
      (Rule.foldNegation build' kind' r) := by
  cases hk with
  | @binary a a' b b' op hl hr =>
    cases op with
    | plus | minus =>
      refine (hw.negated?_lockstep hr).bind ?_
      rintro l' r' _ _ hg (⟨hy, hlt, hlt'⟩ | _)
      · refine (hb hg.twins (.binary _ (hg.same hl) hy) ?_ ?_).answer
        · exact Nat.succ_lt_succ hlt
        · exact Nat.succ_lt_succ hlt'
      · exact .pure hg.twins .none
    | times =>
      simp only [Kind.rank] at hb
      refine test_lockstep hr (-1) (negateBy_lockstep hb hw hl ?_ ?_).answer
        (test_lockstep hl (-1) (negateBy_lockstep hb hw hr ?_ ?_).answer (.pure hw .none))
      all_goals omega
    | div => exact .pure hw .none
  | _ => exact .pure hw .none

theorem answer?_lockstep (hw : Twins l r) (hk : kind.Rel (SameTree l.graph r.graph) kind')
    (rule : Rule) :
    Lockstep l r SameAnswer (rule.answer? build kind l) (rule.answer? build' kind' r) := by
  cases rule with
  | constantFold => exact foldConstants_lockstep hw hk
  | identity => exact dropIdentity_lockstep hw hk
  | absorb => exact absorbZero_lockstep hw hk
  | negationFold => exact foldNegation_lockstep hb hw hk

theorem firstAnswer?_lockstep (hw : Twins l r) (hk : kind.Rel (SameTree l.graph r.graph) kind')
    (rules : List Rule) :
    Lockstep l r SameRuling (Rule.firstAnswer? build rules kind l)
      (Rule.firstAnswer? build' rules kind' r) := by
  induction rules generalizing l r with
  | nil => exact .pure hw .none
  | cons rule rules ih =>
    refine (answer?_lockstep hb hw hk rule).bind ?_
    rintro l' r' _ _ hg (hs | _)
    · exact .pure hg.twins (.some ⟨rfl, hs⟩)
    · exact ih hg.twins (hk.mono fun _ _ => hg.same)

end Building

theorem within_lockstep {depth depth' : Nat} (hw : Twins l r)
    (hk : kind.Rel (SameTree l.graph r.graph) kind') (hd : kind.rank < depth)
    (hd' : kind'.rank < depth') :
    Lockstep l r SameTree (within depth kind l) (within depth' kind' r) := by
  -- The depths differ with the sizes of the graphs; the ranks go down on both sides at each turn.
  induction depth generalizing depth' kind kind' l r with
  | zero => cases hd
  | succ depth ih =>
    cases depth' with
    | zero => cases hd'
    | succ depth' =>
      have hb : BuiltAlike (within depth) (within depth') kind.rank kind'.rank :=
        fun hw hk hlt hlt' => ih hw hk (by omega) (by omega)
      apply Lockstep.get_bind
      rw [← hw.rules]
      refine (firstAnswer?_lockstep hb hw hk l.rules).bind ?_
      rintro l' r' _ _ hg (@⟨⟨rule, i⟩, ⟨_, j⟩, rfl, hs⟩ | _)
      · exact (hg.twins.countAnswer_lockstep rule.name).bind fun hg' _ => .pure hg'.twins (hg'.same hs)
      · exact hg.twins.add_lockstep (hk.mono fun _ _ => hg.same)

theorem operation_lockstep (hw : Twins l r) (hk : kind.Rel (SameTree l.graph r.graph) kind') :
    Lockstep l r SameTree (operation kind l) (operation kind' r) :=
  .get_bind (within_lockstep hw hk (Kind.rank_lt hk.below.1) (Kind.rank_lt hk.below.2))

theorem operation_builtAlike (rank rank' : Nat) : BuiltAlike operation operation rank rank' :=
  fun hw hk _ _ => operation_lockstep hw hk

theorem ownAnswer?_lockstep (hw : Twins l r) (hk : kind.Rel (SameTree l.graph r.graph) kind') :
    Lockstep l r SameRuling (Build.answer? kind l) (Build.answer? kind' r) := by
  apply Lockstep.get_bind
  rw [← hw.rules]
  exact firstAnswer?_lockstep (operation_builtAlike _ _) hw hk l.rules

theorem negate_lockstep (hw : Twins l r) (hs : SameTree l.graph r.graph i j) :
    Lockstep l r SameTree (negate i l) (negate j r) :=
  negateBy_lockstep (operation_builtAlike (i + 2) (j + 2)) hw hs (Nat.lt_succ_self _)
    (Nat.lt_succ_self _)

end FlatFourier
