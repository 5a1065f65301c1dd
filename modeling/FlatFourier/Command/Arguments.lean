import FlatFourier.Command.Basic

namespace FlatFourier

/-- Options with a value. -/
inductive Setting where
  | size
  | emit
  | input
deriving DecidableEq, Repr

/-- What is wrong with the arguments. -/
inductive UsageError where
  | unexpected (argument : Text)
  | missingValue (setting : Setting)
  | badValue (setting : Setting) (written : Text)
  | repeated (argument : Text)
  | missingSize
deriving DecidableEq, Repr

/-- What the arguments have said so far. -/
structure Arguments where
  size : Option Nat
  emit : Option Emit
  switches : List Switch
  input : Option (List Float)
deriving DecidableEq, Repr

namespace Switch

def name : Switch → String
  | noSharing => "no-intern"
  | noPruning => "no-dce"
  | noSimplification => "no-simplify"
  | results => "results"
  | statistics => "stats"

def all : List Switch :=
  [noSharing, noPruning, noSimplification, results, statistics]

def ofName? (s : Text) : Option Switch :=
  all.find? fun switch => switch.name.toList = s

end Switch

namespace Setting

def name : Setting → String
  | size => "size"
  | emit => "emit"
  | input => "run"

def all : List Setting :=
  [size, emit, input]

def ofName? (s : Text) : Option Setting :=
  all.find? fun setting => setting.name.toList = s

end Setting

namespace Emit

def ofName? (s : Text) : Option Emit :=
  if s = "rust".toList then some listing
  else if s = "dot".toList then some diagram
  else none

end Emit

namespace UsageError

def message : UsageError → String
  | unexpected argument => s!"unexpected argument {quoted (String.ofList argument)}"
  | missingValue setting => s!"{quoted setting.name} needs a value"
  | badValue setting written =>
    s!"invalid value {quoted (String.ofList written)} for {quoted setting.name}"
  | repeated argument => s!"{quoted (String.ofList argument)} cannot be used multiple times"
  | missingSize => "a size is required"

end UsageError

namespace Arguments

def empty : Arguments where
  size := none
  emit := none
  switches := []
  input := none

/-- Takes a switch, which must not have been given before. -/
def turn (a : Arguments) (switch : Switch) : Except UsageError Arguments :=
  if switch ∈ a.switches then .error (.repeated switch.name.toList)
  else .ok { a with switches := switch :: a.switches }

/-- Takes a setting's value. Only the input may be given more than once: its parts add up. -/
def set (a : Arguments) (setting : Setting) (written : Text) : Except UsageError Arguments := do
  match setting with
  | .size =>
    let some n := Text.count? written | throw (.badValue setting written)
    if a.size.isSome then throw (.repeated setting.name.toList)
    return { a with size := some n }
  | .emit =>
    let some e := Emit.ofName? written | throw (.badValue setting written)
    if a.emit.isSome then throw (.repeated setting.name.toList)
    return { a with emit := some e }
  | .input =>
    let some xs := (written.splitOn ',').mapM Text.float? | throw (.badValue setting written)
    return { a with input := some (a.input.getD [] ++ xs) }

/-- The letters after a single dash, and whether a size is still to follow. -/
def letters (a : Arguments) (written : Text) : Text → Except UsageError (Arguments × Bool)
  | [] => .ok (a, false)
  | 'v' :: rest => a.letters written rest
  | ['n'] => .ok (a, true)
  | 'n' :: rest => do return (← a.set .size ((['='].isPrefixOf? rest).getD rest), false)
  | _ => .error (.unexpected written)

/-- Reads the arguments in order. -/
def read (a : Arguments) : List Text → Except UsageError Arguments
  | [] => .ok a
  | ['-', '-'] :: rest =>
    match rest with
    | [] => .ok a
    | argument :: _ => .error (.unexpected argument)
  | ('-' :: '-' :: option) :: rest => do
    let (name, value) := match Text.cut ['='] option with
      | some (name, value) => (name, some value)
      | none => (option, none)
    match Setting.ofName? name, Switch.ofName? name, value with
    | some setting, _, some value => (← a.set setting value).read rest
    | some setting, _, none =>
      match rest with
      | value :: rest => (← a.set setting value).read rest
      | [] => throw (.missingValue setting)
    | none, some switch, none => (← a.turn switch).read rest
    | _, _, _ =>
      if option = "verbose".toList then a.read rest
      else throw (.unexpected ('-' :: '-' :: option))
  | ('-' :: c :: cs) :: rest => do
    match ← a.letters ('-' :: c :: cs) (c :: cs) with
    | (a, false) => a.read rest
    | (a, true) =>
      match rest with
      | value :: rest => (← a.set .size value).read rest
      | [] => throw (.missingValue .size)
  | argument :: _ => .error (.unexpected argument)

/-- The command that the arguments make up; the size is required. -/
def command (a : Arguments) : Except UsageError Command :=
  match a.size with
  | some size => .ok ⟨size, a.emit.getD .listing, a.switches, a.input⟩
  | none => .error .missingSize

end Arguments

namespace Command

def ofArguments (arguments : List String) : Except UsageError Command := do
  (← Arguments.empty.read (arguments.map String.toList)).command

/-- The outcome for the given arguments; arguments that make no command have code 2. -/
def execute (arguments : List String) : Outcome :=
  match ofArguments arguments with
  | .ok c => c.run
  | .error e => ⟨2, "", s!"error: {e.message}\n"⟩

end Command

end FlatFourier
