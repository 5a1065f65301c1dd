import FlatFourier.Builder.Basic

namespace FlatFourier

namespace Build

/-- Whether a node is a constant equal to the given number; the zeros are equal. -/
def isConstant (id : NodeId) (x : Float) : Build Bool :=
  return (← constant? id).any (· == x)

/-- The node that a node negates, if it is the difference of zero and another node. -/
def negated? (id : NodeId) : Build (Option NodeId) := do
  match (← node id).kind with
  | .binary .minus x y => return if ← isConstant x 0 then some y else none
  | _ => return none

end Build

namespace Rule

open Build

def foldConstants : Kind → Build (Option NodeId)
  | .binary op a b => do
    let some x ← constant? a | return none
    let some y ← constant? b | return none
    return some (← lift (op.apply x y))
  | .unary op a => do
    let some x ← constant? a | return none
    return some (← lift (op.fold x))
  | _ => return none

def dropIdentity : Kind → Build (Option NodeId)
  | .binary .plus a b => do
    if ← isConstant b 0 then return some a
    if ← isConstant a 0 then return some b
    return none
  | .binary .minus a b => do
    if ← isConstant b 0 then return some a
    return none
  | .binary .times a b => do
    if ← isConstant b 1 then return some a
    if ← isConstant a 1 then return some b
    return none
  | .binary .div a b => do
    if ← isConstant b 1 then return some a
    return none
  | _ => return none

def absorbZero : Kind → Build (Option NodeId)
  | .binary .times a b => do
    if ← isConstant a 0 then return some (← lift 0)
    if ← isConstant b 0 then return some (← lift 0)
    return none
  | _ => return none

/-- Zero minus a node, built by the given function. -/
def negateBy (build : Kind → Build NodeId) (a : NodeId) : Build NodeId := do
  build (.binary .minus (← lift 0) a)

def foldNegation (build : Kind → Build NodeId) : Kind → Build (Option NodeId)
  | .binary .plus a b => do
    let some y ← negated? b | return none
    return some (← build (.binary .minus a y))
  | .binary .minus a b => do
    let some y ← negated? b | return none
    return some (← build (.binary .plus a y))
  | .binary .times a b => do
    if ← isConstant b (-1) then return some (← negateBy build a)
    if ← isConstant a (-1) then return some (← negateBy build b)
    return none
  | _ => return none

/-- The answer of a rule, whose own operations are built by the given function. -/
def answer? (build : Kind → Build NodeId) : Rule → Kind → Build (Option NodeId)
  | constantFold => foldConstants
  | identity => dropIdentity
  | absorb => absorbZero
  | negationFold => foldNegation build

/-- The answer of the first rule that has one. -/
def firstAnswer? (build : Kind → Build NodeId) :
    List Rule → Kind → Build (Option (Rule × NodeId))
  | [], _ => return none
  | rule :: rules, kind => do
    match ← rule.answer? build kind with
    | some id => return some (rule, id)
    | none => firstAnswer? build rules kind

end Rule

namespace Build

/-- Builds an operation with at most `depth` operations one inside another. -/
def within : Nat → Kind → Build NodeId
  | 0, _ => throw .circularNegation
  | depth + 1, kind => do
    match ← Rule.firstAnswer? (within depth) (← get).rules kind with
    | some (rule, id) =>
      countAnswer rule.name
      return id
    | none => add kind

/-- The node of an operation, after the rules have been asked. One operation causes another only
by a product with minus one, which happens once, or by a negation, which each time goes on to the
negated node. So the depth is enough unless negations go round in a circle. -/
def operation (kind : Kind) : Build NodeId := do
  within ((← get).graph.size + 2) kind

/-- The answer of the builder's own rules. -/
def answer? (kind : Kind) : Build (Option (Rule × NodeId)) := do
  Rule.firstAnswer? operation (← get).rules kind

def plus (a b : NodeId) : Build NodeId :=
  operation (.binary .plus a b)

def minus (a b : NodeId) : Build NodeId :=
  operation (.binary .minus a b)

def times (a b : NodeId) : Build NodeId :=
  operation (.binary .times a b)

def div (a b : NodeId) : Build NodeId :=
  operation (.binary .div a b)

def sin (a : NodeId) : Build NodeId :=
  operation (.unary .sin a)

def cos (a : NodeId) : Build NodeId :=
  operation (.unary .cos a)

/-- Zero minus a node. -/
def negate (a : NodeId) : Build NodeId :=
  Rule.negateBy operation a

end Build

end FlatFourier
