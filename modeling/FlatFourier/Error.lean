import FlatFourier.Text

namespace FlatFourier

/-- What is wrong with a line of a kernel text, or with the text as a whole. -/
inductive LineFault where
  | afterEnd
  | header
  | secondFunction
  | outsideFunction
  | lengthAssertion
  | badLength (written : Text)
  | bufferDeclaration
  | bufferInitializer (written : Text)
  | binding
  | boundTwice (name : Text)
  | unknownOperator (written : Text)
  | expression (written : Text)
  | indexing (written : Text)
  | unknownBuffer (name : Text)
  | badIndex (written : Text)
  | unboundName (written : Text)
  | statement (written : Text)
  | missingBrace
  | missingLength
  | missingReturn
  /-- A reason in the words of whoever reads kernel texts in another way. -/
  | other (reason : String)
deriving DecidableEq, Repr

/-- What stops a program on an input of the right length. -/
inductive RunFault where
  | outOfBounds (index length : Nat)
  | missingRegister (register : Nat)
  /-- A reason in the words of whoever runs kernels in another way. -/
  | other (reason : String)
deriving DecidableEq, Repr

/-- What can go wrong between a request and the values of its kernel. -/
inductive Error where
  | notPowerOfTwo (size : Nat)
  | tooLarge (size : Nat)
  | unboundArray (name : String)
  | badLine (line : Nat) (fault : LineFault)
  | lengthMismatch (expected actual : Nat)
  | execution (fault : RunFault)
  /-- A text that could not be put together. No step of this library ends so. -/
  | formatting
  /-- A node id not below the number of nodes. -/
  | unknownNode (id count : Nat)
  | unknownArray (id : Nat)
  | cellOutOfBounds (index : Nat) (name : String) (length : Nat)
  /-- A root or an operand of a planned node that is not below the number of nodes. -/
  | unplannableNode (id count : Nat)
  /-- Negations that refer to each other in a circle, so that folding them would never end. -/
  | circularNegation
  /-- A buffer of more bytes than can be addressed. -/
  | capacityOverflow
deriving DecidableEq, Repr

/-- A name set off in a message. -/
def quoted (name : String) : String :=
  s!"`{name}`"

namespace LineFault

def message : LineFault → String
  | afterEnd => "text after the end of the function"
  | header => "expected `fn name(param: &[f64]) -> Vec<f64> \x7b`"
  | secondFunction => "more than one function"
  | outsideFunction => "statement outside of a function"
  | lengthAssertion => "malformed length assertion"
  | badLength written => "bad length " ++ quoted (.ofList written)
  | bufferDeclaration => "malformed buffer declaration"
  | bufferInitializer written => "unsupported buffer initializer " ++ quoted (.ofList written)
  | binding => "malformed binding"
  | boundTwice name => quoted (.ofList name) ++ " is bound twice"
  | unknownOperator written => "unknown operator " ++ quoted (.ofList written)
  | expression written => "unsupported expression " ++ quoted (.ofList written)
  | indexing written => "expected `buffer[index]`, found " ++ quoted (.ofList written)
  | unknownBuffer name => "unknown buffer " ++ quoted (.ofList name)
  | badIndex written => "bad index " ++ quoted (.ofList written)
  | unboundName written => "unbound name " ++ quoted (.ofList written)
  | statement written => "unrecognized statement " ++ quoted (.ofList written)
  | missingBrace => "missing closing brace"
  | missingLength => "missing input length assertion"
  | missingReturn => "function does not return a buffer"
  | other reason => reason

end LineFault

namespace RunFault

def message : RunFault → String
  | outOfBounds index length => s!"index {index} out of bounds for buffer of length {length}"
  | missingRegister register => s!"register {register} does not exist"
  | other reason => reason

end RunFault

namespace Error

def message : Error → String
  | notPowerOfTwo size => s!"transform size {size} is not a power of two"
  | tooLarge size => s!"transform size {size} is too large to address"
  | unboundArray name => s!"array {quoted name} is not bound by the generated function"
  | badLine line fault => s!"parse error on line {line}: {fault.message}"
  | lengthMismatch expected actual => s!"transform expects {expected} values, got {actual}"
  | execution fault => s!"backend failed: {fault.message}"
  | formatting => "failed to format generated text"
  | unknownNode id count => s!"node x{id} does not belong to this store ({count} nodes)"
  | unknownArray id => s!"array {id} is not registered on this session"
  | cellOutOfBounds index name length =>
    s!"index {index} out of bounds for array {quoted name} of length {length}"
  | unplannableNode id count => s!"index out of bounds: the len is {count} but the index is {id}"
  | circularNegation => "negations refer to each other in a circle"
  | capacityOverflow => "capacity overflow"

end Error

end FlatFourier
