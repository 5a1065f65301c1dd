import FlatFourier.Proofs.Calls

namespace FlatFourier

open Build

namespace Build

/-- The step never changes the builder. -/
def Still (step : Build α) : Prop :=
  ∀ b a b', step b = .ok a b' → b' = b

/-- Without an answer the builder is as before. -/
def Idle (step : Build (Option α)) : Prop :=
  ∀ b b', step b = .ok none b' → b' = b

theorem still_ask (question : Builder → Except Error α) : Still (ask question) := by
  intro b a b' h
  cases hq : question b with
  | ok x =>
    rw [ask_run hq] at h
    cases h
    rfl
  | error e =>
    rw [ask_error hq] at h
    cases h

theorem still_pure (a : α) : Still (pure a) := by
  intro b a' b' h
  cases h
  rfl

theorem Still.bind {step : Build α} {rest : α → Build β} (h : Still step)
    (hr : ∀ a, Still (rest a)) : Still (step >>= rest) := by
  intro b c b' hs
  obtain ⟨a, b₁, hstep, hrest⟩ := run_bind_ok hs
  rw [h b a b₁ hstep] at hrest
  exact hr a b c b' hrest

theorem still_constant? (i : NodeId) : Still (constant? i) :=
  (still_ask _).bind fun _ => still_pure _

theorem still_isConstant (i : NodeId) (x : Float) : Still (isConstant i x) :=
  (still_constant? i).bind fun _ => still_pure _

theorem still_negated? (i : NodeId) : Still (negated? i) := by
  refine (still_ask _).bind fun n => ?_
  split
  · exact (still_isConstant _ _).bind fun _ => still_pure _
  · exact still_pure _

theorem idle_none : Idle (pure none : Build (Option α)) := by
  intro b b' h
  cases h
  rfl

/-- A step that always answers. -/
theorem idle_some (step : Build α) : Idle (step >>= fun a => pure (some a)) := by
  intro b b' h
  obtain ⟨a, b₁, _, hrest⟩ := run_bind_ok h
  cases hrest

theorem Still.idle {look : Build α} {rest : α → Build (Option β)} (h : Still look)
    (hr : ∀ a, Idle (rest a)) : Idle (look >>= rest) := by
  intro b b' hs
  obtain ⟨a, b₁, hlook, hrest⟩ := run_bind_ok hs
  rw [h b a b₁ hlook] at hrest
  exact hr a b b' hrest

theorem Idle.ite {p : Prop} [Decidable p] {s t : Build (Option α)} (hs : Idle s) (ht : Idle t) :
    Idle (if p then s else t) := by
  split
  · exact hs
  · exact ht

end Build

namespace Rule

theorem idle_foldConstants (kind : Kind) : Idle (foldConstants kind) := by
  cases kind with
  | binary op a c =>
    refine (still_constant? a).idle fun x => ?_
    cases x with
    | none => exact idle_none
    | some x =>
      refine (still_constant? c).idle fun y => ?_
      cases y with
      | none => exact idle_none
      | some y => exact idle_some _
  | unary op a =>
    refine (still_constant? a).idle fun x => ?_
    cases x with
    | none => exact idle_none
    | some x => exact idle_some _
  | _ => exact idle_none

theorem idle_dropIdentity (kind : Kind) : Idle (dropIdentity kind) := by
  have given (a : NodeId) : Idle (pure (some a)) := idle_some (pure a)
  have either (a c : NodeId) (x : Float) : Idle (do
      if ← isConstant c x then return some a
      if ← isConstant a x then return some c
      return none) :=
    (still_isConstant c x).idle fun _ => (given a).ite
      ((still_isConstant a x).idle fun _ => (given c).ite idle_none)
  have right (a c : NodeId) (x : Float) : Idle (do
      if ← isConstant c x then return some a
      return none) :=
    (still_isConstant c x).idle fun _ => (given a).ite idle_none
  cases kind with
  | binary op a c =>
    cases op with
    | plus => exact either a c 0
    | minus => exact right a c 0
    | times => exact either a c 1
    | div => exact right a c 1
  | _ => exact idle_none

theorem idle_absorbZero (kind : Kind) : Idle (absorbZero kind) := by
  cases kind with
  | binary op a c =>
    cases op with
    | times =>
      exact (still_isConstant a 0).idle fun _ => (idle_some (lift 0)).ite
        ((still_isConstant c 0).idle fun _ => (idle_some (lift 0)).ite idle_none)
    | _ => exact idle_none
  | _ => exact idle_none

variable (build : Kind → Build NodeId)

theorem idle_foldNegation (kind : Kind) : Idle (foldNegation build kind) := by
  cases kind with
  | binary op a c =>
    cases op with
    | plus | minus =>
      refine (still_negated? c).idle fun y => ?_
      cases y with
      | none => exact idle_none
      | some y => exact idle_some _
    | times =>
      exact (still_isConstant c (-1)).idle fun _ => (idle_some (negateBy build a)).ite
        ((still_isConstant a (-1)).idle fun _ => (idle_some (negateBy build c)).ite idle_none)
    | div => exact idle_none
  | _ => exact idle_none

/-- A rule without an answer leaves the builder as it is, whatever the operations do that it would
cause. -/
theorem idle_answer? (rule : Rule) (kind : Kind) : Idle (rule.answer? build kind) := by
  cases rule with
  | constantFold => exact idle_foldConstants kind
  | identity => exact idle_dropIdentity kind
  | absorb => exact idle_absorbZero kind
  | negationFold => exact idle_foldNegation build kind

variable {build} {b : Builder} {kind : Kind} {rule : Rule} {rules rules' : List Rule}

/-- After a rule without an answer the others are asked, on the same builder. -/
theorem firstAnswer?_cons_none (h : rule.answer? build kind b = .ok none b) (rules : List Rule) :
    firstAnswer? build (rule :: rules) kind b = firstAnswer? build rules kind b :=
  run_bind h

/-- A rule goes first in both lists. They need to answer the same only if that rule does not. -/
theorem firstAnswer?_cons_congr (h : rule.answer? build kind b = .ok none b →
      firstAnswer? build rules kind b = firstAnswer? build rules' kind b) :
    firstAnswer? build (rule :: rules) kind b = firstAnswer? build (rule :: rules') kind b := by
  cases hr : rule.answer? build kind b with
  | error e b' => rw [firstAnswer?, firstAnswer?, run_bind_error hr, run_bind_error hr]
  | ok answer b' =>
    cases answer with
    | some i => rw [firstAnswer?, firstAnswer?, run_bind hr, run_bind hr]
    | none =>
      obtain rfl := idle_answer? build rule kind b b' hr
      rw [firstAnswer?_cons_none hr, firstAnswer?_cons_none hr, h hr]

/-- A rule that has had no answer need not be asked again. -/
theorem firstAnswer?_filter (h : rule.answer? build kind b = .ok none b) (rules : List Rule) :
    firstAnswer? build (rules.filter fun other => !other == rule) kind b =
      firstAnswer? build rules kind b := by
  induction rules with
  | nil => rfl
  | cons other rules ih =>
    by_cases he : other = rule
    · subst he
      rw [List.filter_cons_of_neg (by simp), firstAnswer?_cons_none h]
      exact ih
    · rw [List.filter_cons_of_pos (by simpa using he)]
      exact firstAnswer?_cons_congr fun _ => ih

/-- Only the first place of a rule counts. -/
theorem alike_eraseDups (rules : List Rule) : Alike rules.eraseDups rules := by
  intro build kind
  funext b
  -- What is left behind the first rule is shorter, but not a tail of the list.
  induction hn : rules.length using Nat.strongRecOn generalizing rules with
  | ind n ih =>
    subst hn
    cases rules with
    | nil => rfl
    | cons rule rules =>
      rw [List.eraseDups_cons]
      apply firstAnswer?_cons_congr
      intro hnone
      have hlength : (rules.filter fun other => !other == rule).length < (rule :: rules).length :=
        Nat.lt_succ_of_le (List.length_filter_le _ _)
      rw [ih _ hlength _ rfl, firstAnswer?_filter hnone]

end Rule

/-- The same builder with other rules. -/
def Builder.exchange (b : Builder) (rules : List Rule) : Builder :=
  { b with rules }

namespace Build

variable {b : Builder} {rules : List Rule}

/-- The outcome of a step, with other rules in the builder that is left. -/
def exchanged (rules : List Rule) :
    EStateM.Result Error Builder α → EStateM.Result Error Builder α
  | .ok a b => .ok a (b.exchange rules)
  | .error e b => .error e (b.exchange rules)

theorem add_exchange (b : Builder) (rules : List Rule) (kind : Kind) :
    (b.exchange rules).add kind = ((b.add kind).1, (b.add kind).2.exchange rules) := by
  cases kind with
  | write a c v => rfl
  | _ =>
    simp only [Builder.add, Builder.exchange]
    split <;> rfl

theorem checkCell_exchange (b : Builder) (rules : List Rule) (a : ArrayId) (c : Nat) :
    checkCell a c (b.exchange rules) = exchanged rules (checkCell a c b) := by
  cases ha : b.arrays[a]? with
  | none =>
    have ha' : (b.exchange rules).arrays[a]? = none := ha
    rw [checkCell, run_bind_error (array_error ha), run_bind_error (array_error ha')]
    rfl
  | some info =>
    have ha' : (b.exchange rules).arrays[a]? = some info := ha
    rw [checkCell, run_bind (array_run ha), run_bind (array_run ha')]
    split
    · rfl
    · rfl

/-- A step put together from single acts does the same under other rules that answer the same. -/
theorem Composed.exchange {step : Build α} (hs : Composed step) (h : Rule.Alike rules b.rules) :
    step (b.exchange rules) = exchanged rules (step b) := by
  induction hs generalizing b with
  | pure a => rfl
  | throw e => rfl
  | @bind _ _ step rest hstep _ ih ihr =>
    have hrules : (step.after b).rules = b.rules :=
      ((settings_lasting b.options b.rules).maintains hstep b ⟨rfl, rfl⟩).2
    have ih := ih h
    cases hb : step b with
    | ok a b' =>
      rw [after_ok hb] at hrules
      rw [hb] at ih
      rw [run_bind hb, run_bind ih]
      exact ihr a (hrules.symm ▸ h)
    | error e b' =>
      rw [hb] at ih
      rw [run_bind_error hb, run_bind_error ih]
      rfl
  | look same _ ih =>
    have hview : (b.exchange rules).SameView b := ⟨rfl, h, rfl⟩
    rw [run_bind (get_run b), run_bind (get_run (b.exchange rules)), same _ _ hview]
    exact ih b h
  | cell a c => exact checkCell_exchange b rules a c
  | add kind =>
    rw [add_run, add_run, add_exchange]
    rfl
  | declare name length => rfl
  | count name => rfl
  | note length => rfl

theorem Composed.after_exchange {step : Build α} (hs : Composed step)
    (h : Rule.Alike rules b.rules) :
    step.after (b.exchange rules) = (step.after b).exchange rules := by
  rw [after, after, hs.exchange h]
  cases step b with
  | ok a b' => rfl
  | error e b' => rfl

/-- What a step hands back, or why it fails. -/
def reply (step : Build α) (b : Builder) : Except Error α :=
  match step b with
  | .ok a _ => .ok a
  | .error e _ => .error e

theorem Composed.reply_exchange {step : Build α} (hs : Composed step)
    (h : Rule.Alike rules b.rules) : step.reply (b.exchange rules) = step.reply b := by
  rw [reply, reply, hs.exchange h]
  cases step b with
  | ok a b' => rfl
  | error e b' => rfl

end Build

namespace Builder

/-- What events hand back one after another, or why they fail. -/
def replies (b : Builder) : List Event → List (Except Error (List NodeId))
  | [] => []
  | event :: events => event.run.reply b :: (event.run.after b).replies events

variable {b : Builder} {rules : List Rule}

/-- Rules that always answer the same can be exchanged before anything happens or after it. -/
theorem exchange_events (h : Rule.Alike rules b.rules) (events : List Event) :
    (b.exchange rules).replies events = b.replies events ∧
      (b.exchange rules).after events = (b.after events).exchange rules := by
  induction events generalizing b with
  | nil => exact ⟨rfl, rfl⟩
  | cons event events ih =>
    have hevent := composed_event event
    have hrules : (event.run.after b).rules = b.rules :=
      ((settings_lasting b.options b.rules).maintains hevent b ⟨rfl, rfl⟩).2
    obtain ⟨hreplies, hafter⟩ := ih (hrules.symm ▸ h)
    constructor
    · rw [replies, replies, hevent.reply_exchange h, hevent.after_exchange h, hreplies]
    · change (event.run.after (b.exchange rules)).after events = _
      rw [hevent.after_exchange h, hafter]
      rfl

end Builder

/-- Repeated rules are redundant. With any builder, any rules and any events, it makes no difference
if each rule is kept only at its first place: every event hands back the same nodes or fails for the
same cause, and the builders that are left differ in their rules only. -/
theorem repeated_rules_redundant (b : Builder) (rules : List Rule) (events : List Event) :
    ({ b with rules := rules.eraseDups } : Builder).replies events =
        ({ b with rules } : Builder).replies events ∧
      ({ b with rules := rules.eraseDups } : Builder).after events =
        { ({ b with rules } : Builder).after events with rules := rules.eraseDups } :=
  Builder.exchange_events (b := { b with rules }) (Rule.alike_eraseDups rules) events

/-- Of five rules three are left, and what is asked first is asked first still. -/
example : [Rule.absorb, .identity, .absorb, .negationFold, .identity].eraseDups =
    [.absorb, .identity, .negationFold] := by decide

end FlatFourier
