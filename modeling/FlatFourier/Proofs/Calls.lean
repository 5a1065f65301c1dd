import FlatFourier.Fourier
import FlatFourier.Plan
import FlatFourier.Text
import FlatFourier.Proofs.Growth

namespace FlatFourier

open Build

/-- A call with its arguments. -/
inductive Call where
  | declare (name : String) (length : Nat)
  | lift (x : Float)
  | read (array : ArrayId) (index : Nat)
  | write (array : ArrayId) (index : Nat) (value : NodeId)
  | result (value : NodeId)
  | make (kind : Kind)
  | operation (kind : Kind)
  | negate (value : NodeId)
  | polar (angle : Float)
  | add (x y : Sample)
  | sub (x y : Sample)
  | mul (x y : Sample)
  | transform (xs : List Sample)
  | answer (kind : Kind)
  | ask (rule : Rule) (kind : Kind)
  | count (name : String)
  | plan (roots : List NodeId) (prune : Bool)

namespace Call

/-- The ids that are handed over. -/
def nodes : Call → List NodeId
  | write _ _ v => [v]
  | result v => [v]
  | negate v => [v]
  | make kind | operation kind | answer kind | ask _ kind => kind.operands
  | add x y | sub x y | mul x y => x.nodes ++ y.nodes
  | transform xs => xs.flatMap Sample.nodes
  | plan roots _ => roots
  | _ => []

/-- Runs a call and gives the nodes that it hands back. -/
def run : Call → Build (List NodeId)
  | declare name length => do
    let _ ← Build.declare name length
    return []
  | lift x => do return [← Build.lift x]
  | read a c => do return [← Build.read a c]
  | write a c v => do return [← Build.write a c v]
  | result v => do return [← Build.result v]
  | make kind => do return [← Build.add kind]
  | operation kind => do return [← Build.operation kind]
  | negate v => do return [← Build.negate v]
  | polar angle => do return (← Sample.polar angle).nodes
  | add x y => do return (← x.add y).nodes
  | sub x y => do return (← x.sub y).nodes
  | mul x y => do return (← x.mul y).nodes
  | transform xs => do return (← Fourier.transform xs).flatMap Sample.nodes
  | answer kind => do return ((← Build.answer? kind).map (·.2)).toList
  | ask rule kind => do return (← rule.answer? Build.operation kind).toList
  | count name => do
    countAnswer name
    return []
  | plan roots prune => do return (← Build.plan roots prune).order

/-- Calls of the staging interface: sums, differences, products, quotients, sines and cosines are
the operations among them. An array's length is a 64-bit count. -/
def Stages : Call → Prop
  | declare _ length => length < Text.countBound
  | operation (.binary _ _ _) | operation (.unary _ _) => True
  | make _ | operation _ | answer _ | ask _ _ | count _ | plan _ _ => False
  | _ => True

end Call

/-- The state that a step leaves, whether it succeeds or fails. -/
def Build.after (step : Build α) (b : Builder) : Builder :=
  match step b with
  | .ok _ b' => b'
  | .error _ b' => b'

/-- All that can be done to a builder from outside. Besides calls, any rules can be asked what they
answer, and any number can be noted as the length of a plan. -/
inductive Event where
  | call (c : Call)
  | consult (rules : List Rule) (kind : Kind)
  | note (length : Nat)

def Event.run : Event → Build (List NodeId)
  | call c => c.run
  | consult rules kind => do
    return ((← Rule.firstAnswer? operation rules kind).map (·.2)).toList
  | note length => do
    modify fun b => b.countPlanned length
    return []

/-- The builder that is left when events have happened one after another. -/
def Builder.after (b : Builder) (events : List Event) : Builder :=
  events.foldl (fun b event => event.run.after b) b

/-- The builders that allowed calls lead to, under any options and rules. -/
inductive Reached (allowed : Builder → Call → Prop) : Builder → Prop where
  | start (options : Options) (rules : List Rule) : Reached allowed (.withRules options rules)
  | call (h : Reached allowed b) (c : Call) (hc : allowed b c) : Reached allowed (c.run.after b)

/-- Builders reached by any calls whatever. -/
abbrev Reachable : Builder → Prop :=
  Reached fun _ _ => True

/-- Builders reached by staging calls on nodes that exist. -/
abbrev Staged : Builder → Prop :=
  Reached fun b c => c.Stages ∧ ∀ i ∈ c.nodes, i < b.graph.size

theorem Reached.mono {allowed allowed' : Builder → Call → Prop} (h : Reached allowed b)
    (hm : ∀ b c, allowed b c → allowed' b c) : Reached allowed' b := by
  induction h with
  | start options rules => exact .start options rules
  | call _ c hc ih => exact .call ih c (hm _ c hc)

namespace Build

theorem after_of_yields {step : Build α} {post : Builder → Prop}
    (h : Yields step b fun _ b' => post b') : post (step.after b) := by
  obtain ⟨a, b', he, h⟩ := h
  simpa [after, he] using h

theorem after_ok {step : Build α} (h : step b = .ok a b') : step.after b = b' := by
  simp [after, h]

theorem after_error {step : Build α} (h : step b = .error e b') : step.after b = b' := by
  simp [after, h]

end Build

/-- Lists of rules that always answer the same. -/
def Rule.Alike (rules rules' : List Rule) : Prop :=
  ∀ build kind, Rule.firstAnswer? build rules kind = Rule.firstAnswer? build rules' kind

/-- All that steps look at is the same. Of the rules a step learns no more than what they answer. -/
structure Builder.SameView (l r : Builder) : Prop where
  graph : l.graph = r.graph
  rules : Rule.Alike l.rules r.rules
  log : l.log = r.log

namespace Build

/-- Steps that are put together from single acts. Of the arrays a step learns no more than whether a
cell is there. -/
inductive Composed : {α : Type} → Build α → Prop where
  | pure (a : α) : Composed (pure a)
  | throw (e : Error) : Composed (throw e : Build α)
  | bind {step : Build α} {rest : α → Build β} (h : Composed step)
      (hr : ∀ a, Composed (rest a)) : Composed (step >>= rest)
  | look {rest : Builder → Build α} (same : ∀ l r : Builder, l.SameView r → rest l = rest r)
      (h : ∀ b, Composed (rest b)) : Composed (get >>= rest)
  | cell (a : ArrayId) (c : Nat) : Composed (checkCell a c)
  | add (kind : Kind) : Composed (add kind)
  | declare (name : String) (length : Nat) : Composed (Call.declare name length).run
  | count (name : String) : Composed (countAnswer name)
  | note (length : Nat) : Composed (modify fun b => b.countPlanned length : Build Unit)

section Rules

theorem Composed.ite {p : Prop} [Decidable p] {s t : Build α} (hs : Composed s)
    (ht : Composed t) : Composed (if p then s else t) := by
  split
  · exact hs
  · exact ht

theorem composed_ask {question : Builder → Except Error α}
    (same : ∀ l r : Builder, l.SameView r → question l = question r) : Composed (ask question) := by
  refine .look (fun l r hv => by rw [same l r hv]) fun b => ?_
  split
  · exact .pure _
  · exact .throw _

theorem composed_node (i : NodeId) : Composed (node i) := by
  apply composed_ask
  intro l r hv
  rw [Builder.node, Builder.node, hv.graph]

theorem composed_constant? (i : NodeId) : Composed (constant? i) :=
  (composed_node i).bind fun _ => .pure _

theorem composed_isConstant (i : NodeId) (x : Float) : Composed (isConstant i x) :=
  (composed_constant? i).bind fun _ => .pure _

theorem composed_negated? (i : NodeId) : Composed (negated? i) := by
  refine (composed_node i).bind fun n => ?_
  split
  · exact (composed_isConstant _ _).bind fun _ => .pure _
  · exact .pure _

theorem composed_foldConstants (kind : Kind) : Composed (Rule.foldConstants kind) := by
  cases kind with
  | binary op a b =>
    refine (composed_constant? a).bind fun x => ?_
    cases x with
    | none => exact .pure _
    | some x =>
      refine (composed_constant? b).bind fun y => ?_
      cases y with
      | none => exact .pure _
      | some y => exact (Composed.add _).bind fun _ => .pure _
  | unary op a =>
    refine (composed_constant? a).bind fun x => ?_
    cases x with
    | none => exact .pure _
    | some x => exact (Composed.add _).bind fun _ => .pure _
  | _ => exact .pure _

theorem composed_dropIdentity (kind : Kind) : Composed (Rule.dropIdentity kind) := by
  have either (a b : NodeId) (x : Float) : Composed (do
      if ← isConstant b x then return some a
      if ← isConstant a x then return some b
      return none) :=
    (composed_isConstant _ _).bind fun _ => .ite (.pure _)
      ((composed_isConstant _ _).bind fun _ => .ite (.pure _) (.pure _))
  have right (a b : NodeId) (x : Float) : Composed (do
      if ← isConstant b x then return some a
      return none) :=
    (composed_isConstant _ _).bind fun _ => .ite (.pure _) (.pure _)
  cases kind with
  | binary op a b =>
    cases op with
    | plus => exact either a b 0
    | minus => exact right a b 0
    | times => exact either a b 1
    | div => exact right a b 1
  | _ => exact .pure _

theorem composed_absorbZero (kind : Kind) : Composed (Rule.absorbZero kind) := by
  have zero : Composed (do return some (← lift 0)) :=
    (Composed.add _).bind fun _ => .pure _
  cases kind with
  | binary op a b =>
    cases op with
    | times =>
      exact (composed_isConstant _ _).bind fun _ => .ite zero
        ((composed_isConstant _ _).bind fun _ => .ite zero (.pure _))
    | _ => exact .pure _
  | _ => exact .pure _

variable {build : Kind → Build NodeId} (hb : ∀ kind, Composed (build kind))
include hb

theorem composed_negateBy (a : NodeId) : Composed (Rule.negateBy build a) :=
  (Composed.add _).bind fun _ => hb _

theorem composed_foldNegation (kind : Kind) : Composed (Rule.foldNegation build kind) := by
  have negated (a : NodeId) : Composed (do return some (← Rule.negateBy build a)) :=
    (composed_negateBy hb a).bind fun _ => .pure _
  cases kind with
  | binary op a b =>
    cases op with
    | plus | minus =>
      refine (composed_negated? b).bind fun y => ?_
      cases y with
      | none => exact .pure _
      | some y => exact (hb _).bind fun _ => .pure _
    | times =>
      exact (composed_isConstant _ _).bind fun _ => .ite (negated a)
        ((composed_isConstant _ _).bind fun _ => .ite (negated b) (.pure _))
    | div => exact .pure _
  | _ => exact .pure _

/-- A rule's answer, as long as the operations that it causes are composed. -/
theorem composed_answer? (rule : Rule) (kind : Kind) : Composed (rule.answer? build kind) := by
  cases rule with
  | constantFold => exact composed_foldConstants kind
  | identity => exact composed_dropIdentity kind
  | absorb => exact composed_absorbZero kind
  | negationFold => exact composed_foldNegation hb kind

theorem composed_firstAnswer? (rules : List Rule) (kind : Kind) :
    Composed (Rule.firstAnswer? build rules kind) := by
  induction rules with
  | nil => exact .pure _
  | cons rule rules ih =>
    refine (composed_answer? hb rule kind).bind fun answer => ?_
    cases answer with
    | some i => exact .pure _
    | none => exact ih

end Rules

section Calls

theorem composed_within (depth : Nat) (kind : Kind) : Composed (within depth kind) := by
  induction depth generalizing kind with
  | zero => exact .throw _
  | succ depth ih =>
    refine .look (fun l r hv => by rw [hv.rules]) fun b =>
      (composed_firstAnswer? ih b.rules kind).bind fun r => ?_
    cases r with
    | some r => exact (Composed.count _).bind fun _ => .pure _
    | none => exact .add kind

theorem composed_operation (kind : Kind) : Composed (operation kind) :=
  .look (fun l r hv => by rw [hv.graph]) fun _ => composed_within _ kind

theorem composed_polar (angle : Float) : Composed (Sample.polar angle) :=
  (Composed.add _).bind fun _ => (composed_operation _).bind fun _ =>
    (composed_operation _).bind fun _ => .pure _

theorem composed_sampleAdd (x y : Sample) : Composed (x.add y) :=
  (composed_operation _).bind fun _ => (composed_operation _).bind fun _ => .pure _

theorem composed_sampleSub (x y : Sample) : Composed (x.sub y) :=
  (composed_operation _).bind fun _ => (composed_operation _).bind fun _ => .pure _

theorem composed_sampleMul (x y : Sample) : Composed (x.mul y) :=
  (composed_operation _).bind fun _ => (composed_operation _).bind fun _ =>
    (composed_operation _).bind fun _ => (composed_operation _).bind fun _ =>
      (composed_operation _).bind fun _ => (composed_operation _).bind fun _ => .pure _

theorem composed_butterfly (n k : Nat) (x y : Sample) : Composed (Fourier.butterfly n k x y) :=
  (composed_polar _).bind fun t => (composed_sampleMul t y).bind fun z =>
    (composed_sampleAdd x z).bind fun _ => (composed_sampleSub x z).bind fun _ => .pure _

theorem composed_stage (n k : Nat) (xs ys : List Sample) : Composed (Fourier.stage n k xs ys) := by
  induction xs generalizing k ys with
  | nil => exact .pure _
  | cons x xs ih =>
    cases ys with
    | nil => exact .pure _
    | cons y ys =>
      exact (composed_butterfly n k x y).bind fun _ => (ih (k + 1) ys).bind fun _ => .pure _

theorem composed_stages (depth : Nat) (xs : List Sample) : Composed (Fourier.stages depth xs) := by
  induction depth generalizing xs with
  | zero => exact .pure _
  | succ depth ih =>
    exact (ih _).bind fun _ => (ih _).bind fun _ =>
      (composed_stage _ _ _ _).bind fun _ => .pure _

theorem composed_plan (roots : List NodeId) (prune : Bool) : Composed (plan roots prune) := by
  have hask : Composed
      (ask fun b => if prune then Plan.pruned b roots else .ok (Plan.complete b)) := by
    apply composed_ask
    intro l r hv
    rw [Plan.pruned, Plan.pruned, Plan.complete, Plan.complete, hv.graph, hv.log]
  exact hask.bind fun p => (Composed.note _).bind fun _ => .pure _

/-- Every call is put together from single acts. -/
theorem composed_run (c : Call) : Composed c.run := by
  cases c with
  | declare name length => exact .declare name length
  | lift x => exact (Composed.add _).bind fun _ => .pure _
  | read a c =>
    have hread : Composed (read a c) := by
      refine (Composed.cell a c).bind fun _ => .look ?_ fun b => .add _
      intro l r hv
      rw [hv.log]
    exact hread.bind fun _ => .pure _
  | write a c v =>
    exact ((Composed.cell a c).bind fun _ => .add _).bind fun _ => .pure _
  | result v => exact (Composed.add _).bind fun _ => .pure _
  | make kind => exact (Composed.add _).bind fun _ => .pure _
  | operation kind => exact (composed_operation kind).bind fun _ => .pure _
  | negate v => exact (composed_negateBy composed_operation v).bind fun _ => .pure _
  | polar angle => exact (composed_polar angle).bind fun _ => .pure _
  | add x y => exact (composed_sampleAdd x y).bind fun _ => .pure _
  | sub x y => exact (composed_sampleSub x y).bind fun _ => .pure _
  | mul x y => exact (composed_sampleMul x y).bind fun _ => .pure _
  | transform xs =>
    exact Composed.bind (.ite (composed_stages _ xs) (.throw _)) fun _ => .pure _
  | answer kind =>
    have hanswer : Composed (answer? kind) := by
      refine .look ?_ fun b => composed_firstAnswer? composed_operation b.rules kind
      intro l r hv
      rw [hv.rules]
    exact hanswer.bind fun _ => .pure _
  | ask rule kind =>
    exact (composed_answer? composed_operation rule kind).bind fun _ => .pure _
  | count name => exact (Composed.count name).bind fun _ => .pure _
  | plan roots prune => exact (composed_plan roots prune).bind fun _ => .pure _

theorem composed_event (event : Event) : Composed event.run := by
  cases event with
  | call c => exact composed_run c
  | consult rules kind =>
    exact (composed_firstAnswer? composed_operation rules kind).bind fun _ => .pure _
  | note length => exact (Composed.note length).bind fun _ => .pure _

end Calls

/-- Two outcomes of a step: the same result or two failures, and related builders. -/
inductive Matched (rel : Builder → Builder → Prop) :
    EStateM.Result Error Builder α → EStateM.Result Error Builder α → Prop where
  | ok (h : rel l r) (a : α) : Matched rel (.ok a l) (.ok a r)
  | error (h : rel l r) (e e' : Error) : Matched rel (.error e l) (.error e' r)

/-- The step does the same on related builders. -/
def Uniform (rel : Builder → Builder → Prop) (step : Build α) : Prop :=
  ∀ l r, rel l r → Matched rel (step l) (step r)

variable {rel : Builder → Builder → Prop}

theorem Matched.bind {step : Build α} {rest : α → Build β} (h : Matched rel (step l) (step r))
    (hr : ∀ a, Uniform rel (rest a)) : Matched rel ((step >>= rest) l) ((step >>= rest) r) := by
  generalize hp : step l = p at h
  generalize hq : step r = q at h
  cases h with
  | ok h a =>
    rw [run_bind hp, run_bind hq]
    exact hr a _ _ h
  | error h e e' =>
    rw [run_bind_error hp, run_bind_error hq]
    exact .error h e e'

theorem Matched.of_ok {out : EStateM.Result Error Builder α} (h : Matched rel (.ok a l) out) :
    ∃ r, out = .ok a r ∧ rel l r := by
  cases h with
  | ok h => exact ⟨_, rfl, h⟩

/-- The step keeps what is invariant, whether it succeeds or fails. -/
def Maintains (inv : Builder → Prop) (step : Build α) : Prop :=
  ∀ b, inv b → inv (step.after b)

variable {inv : Builder → Prop}

/-- An invariant is a relation of a builder to itself. -/
theorem Uniform.maintains {step : Build α} (h : Uniform (fun l r => l = r ∧ inv l) step) :
    Maintains inv step := by
  intro b hb
  have h := h b b ⟨rfl, hb⟩
  cases he : step b with
  | ok a b' =>
    rw [he] at h
    rw [after, he]
    cases h with
    | ok h => exact h.2
  | error e b' =>
    rw [he] at h
    rw [after_error he]
    cases h with
    | error h => exact h.2

/-- A plan changes nothing but its count. -/
theorem maintains_plan (h : ∀ {b}, inv b → ∀ length, inv (b.countPlanned length))
    (roots : List NodeId) (prune : Bool) : Maintains inv (Call.plan roots prune).run := by
  intro b hb
  cases hq : (if prune then Plan.pruned b roots else .ok (Plan.complete b)) with
  | ok p =>
    have hplan : Build.plan roots prune b = .ok p (b.countPlanned p.length) :=
      (run_bind (ask_run hq)).trans rfl
    have hrun : (Call.plan roots prune).run b = .ok p.order (b.countPlanned p.length) :=
      (run_bind hplan).trans rfl
    rw [after, hrun]
    exact h hb p.length
  | error e =>
    have hplan : Build.plan roots prune b = .error e b := run_bind_error (ask_error hq)
    have hrun : (Call.plan roots prune).run b = .error e b := run_bind_error hplan
    rw [after_error hrun]
    exact hb

end Build

/-- A relation of builders that have in common what calls depend on, and that every change keeps. -/
structure Congruence (rel : Builder → Builder → Prop) : Prop where
  graph : ∀ {l r}, rel l r → l.graph = r.graph
  rules : ∀ {l r}, rel l r → l.rules = r.rules
  log : ∀ {l r}, rel l r → l.log = r.log
  lengths : ∀ {l r}, rel l r → ∀ a : ArrayId,
    (l.arrays[a]?).map (·.length) = (r.arrays[a]?).map (·.length)
  add : ∀ {l r}, rel l r → ∀ kind,
    (l.add kind).1 = (r.add kind).1 ∧ rel (l.add kind).2 (r.add kind).2
  declare : ∀ {l r}, rel l r → ∀ name length,
    rel (l.declare name length).2 (r.declare name length).2
  count : ∀ {l r}, rel l r → ∀ name, rel (l.countAnswer name) (r.countAnswer name)
  planned : ∀ {l r}, rel l r → ∀ length, rel (l.countPlanned length) (r.countPlanned length)

namespace Congruence

variable {rel : Builder → Builder → Prop} (h : Congruence rel)
include h

/-- The name of an array shows only in the message of a failure. -/
theorem uniform_checkCell (a : ArrayId) (c : Nat) : Uniform rel (Build.checkCell a c) := by
  intro l r hrel
  have hlen := h.lengths hrel a
  cases hl : l.arrays[a]? with
  | none =>
    have hr : r.arrays[a]? = none := by simpa [hl] using hlen.symm
    rw [Build.checkCell, run_bind_error (array_error hl), run_bind_error (array_error hr)]
    exact .error hrel _ _
  | some info =>
    obtain ⟨info', hr, hsame⟩ : ∃ info', r.arrays[a]? = some info' ∧
        info'.length = info.length := by
      rw [hl] at hlen
      exact Option.map_eq_some_iff.mp hlen.symm
    rw [Build.checkCell, run_bind (array_run hl), run_bind (array_run hr), hsame]
    split
    · exact .ok hrel ()
    · exact .error hrel _ _

/-- Steps put together from single acts do the same on related builders. -/
theorem uniform {step : Build α} (hs : Composed step) : Uniform rel step := by
  induction hs with
  | pure a => exact fun _ _ hrel => .ok hrel a
  | throw e => exact fun _ _ hrel => .error hrel e e
  | bind _ _ ih ihr => exact fun l r hrel => (ih l r hrel).bind ihr
  | look same _ ih =>
    intro l r hrel
    have hview : l.SameView r := ⟨h.graph hrel, fun _ _ => by rw [h.rules hrel], h.log hrel⟩
    rw [run_bind (get_run l), run_bind (get_run r), same l r hview]
    exact ih r l r hrel
  | cell a c => exact h.uniform_checkCell a c
  | add kind =>
    intro l r hrel
    rw [add_run, add_run, (h.add hrel kind).1]
    exact .ok (h.add hrel kind).2 _
  | declare name length => exact fun l r hrel => .ok (h.declare hrel name length) []
  | count name => exact fun _ _ hrel => .ok (h.count hrel name) ()
  | note length => exact fun _ _ hrel => .ok (h.planned hrel length) ()

theorem uniform_plan (roots : List NodeId) (prune : Bool) :
    Uniform rel (Build.plan roots prune) :=
  h.uniform (composed_plan roots prune)

/-- Every call does the same on related builders. -/
theorem uniform_run (c : Call) : Uniform rel c.run :=
  h.uniform (composed_run c)

end Congruence

/-- What every change to a builder keeps. -/
structure Lasting (inv : Builder → Prop) : Prop where
  add : ∀ {b}, inv b → ∀ kind, inv (b.add kind).2
  declare : ∀ {b}, inv b → ∀ name length, inv (b.declare name length).2
  count : ∀ {b}, inv b → ∀ name, inv (b.countAnswer name)
  planned : ∀ {b}, inv b → ∀ length, inv (b.countPlanned length)

namespace Lasting

variable {inv : Builder → Prop} (h : Lasting inv)
include h

theorem congruence : Congruence fun l r => l = r ∧ inv l := by
  constructor
  · intro l r hrel
    rw [hrel.1]
  · intro l r hrel
    rw [hrel.1]
  · intro l r hrel
    rw [hrel.1]
  · intro l r hrel a
    rw [hrel.1]
  · intro l r hrel kind
    obtain ⟨rfl, hi⟩ := hrel
    exact ⟨rfl, rfl, h.add hi kind⟩
  · intro l r hrel name length
    obtain ⟨rfl, hi⟩ := hrel
    exact ⟨rfl, h.declare hi name length⟩
  · intro l r hrel rule
    obtain ⟨rfl, hi⟩ := hrel
    exact ⟨rfl, h.count hi rule⟩
  · intro l r hrel length
    obtain ⟨rfl, hi⟩ := hrel
    exact ⟨rfl, h.planned hi length⟩

/-- Steps put together from single acts keep what every change to a builder keeps. -/
theorem maintains {step : Build α} (hs : Composed step) : Maintains inv step :=
  (h.congruence.uniform hs).maintains

theorem maintains_run (c : Call) : Maintains inv c.run :=
  h.maintains (composed_run c)

/-- What holds at the start and lasts holds of every builder that calls lead to. -/
theorem reached {allowed : Builder → Call → Prop}
    (start : ∀ options rules, inv (.withRules options rules)) (hr : Reached allowed b) : inv b := by
  induction hr with
  | start options rules => exact start options rules
  | call _ c _ ih => exact h.maintains_run c _ ih

theorem calls (hb : inv b) (calls : List Call) :
    inv (calls.foldl (fun b c => c.run.after b) b) := by
  induction calls generalizing b with
  | nil => exact hb
  | cons c calls ih => exact ih (h.maintains_run c b hb)

/-- What holds at the start and lasts holds whatever has happened. -/
theorem events (hb : inv b) (events : List Event) : inv (b.after events) := by
  induction events generalizing b with
  | nil => exact hb
  | cons event events ih => exact ih (h.maintains (composed_event event) b hb)

end Lasting

theorem consistent_lasting : Lasting fun b => b.graph.Consistent where
  add h kind := Builder.add_consistent h kind
  declare h _ _ := h
  count h _ := h
  planned h _ := h

theorem settings_lasting (options : Options) (rules : List Rule) :
    Lasting fun b => b.options = options ∧ b.rules = rules where
  add h kind := ⟨(Builder.add_options _ kind).trans h.1, (Builder.add_rules _ kind).trans h.2⟩
  declare h _ _ := h
  count h _ := h
  planned h _ := h

theorem keeps_lasting (g : Graph) : Lasting fun b => g.Keeps b.graph where
  add h kind := h.trans (Builder.add_keeps _ kind)
  declare h _ _ := h
  count h _ := h
  planned h _ := h

/-- Calls that stay allowed as the graph grows can be made one after another. -/
theorem Reached.calls {allowed : Builder → Call → Prop} (h : Reached allowed b) (calls : List Call)
    (hc : ∀ c ∈ calls, ∀ b', b.graph.Keeps b'.graph → allowed b' c) :
    Reached allowed (calls.foldl (fun b c => c.run.after b) b) := by
  induction calls generalizing b with
  | nil => exact h
  | cons c calls ih =>
    have hkeeps : b.graph.Keeps (c.run.after b).graph :=
      (keeps_lasting b.graph).maintains_run c b (.refl _)
    refine ih (.call h c (hc c (by simp) b (.refl _))) ?_
    intro c' hmem b' hkeeps'
    exact hc c' (by simp [hmem]) b' (hkeeps.trans hkeeps')

theorem Reachable.calls (h : Reachable b) (calls : List Call) :
    Reachable (calls.foldl (fun b c => c.run.after b) b) :=
  Reached.calls h calls fun _ _ _ _ => trivial

/-- The graph of a builder reached by any calls is consistent. -/
theorem Reachable.consistent {b : Builder} (h : Reachable b) : b.graph.Consistent :=
  consistent_lasting.reached (fun options _ => Graph.consistent_empty options.sharing) h

namespace Builder

theorem consistent_after (options : Options) (rules : List Rule) (events : List Event) :
    ((withRules options rules).after events).graph.Consistent :=
  consistent_lasting.events (Graph.consistent_empty options.sharing) events

theorem settings_after (options : Options) (rules : List Rule) (events : List Event) :
    ((withRules options rules).after events).options = options ∧
      ((withRules options rules).after events).rules = rules :=
  (settings_lasting options rules).events ⟨rfl, rfl⟩ events

end Builder

end FlatFourier
