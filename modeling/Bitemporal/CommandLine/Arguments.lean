/-!
# Arguments

The arguments of a command line are options of the program, a command, and options of the command.
An option that takes a value finds it behind an equals sign or in the next argument, which may not
begin with a hyphen. An option is settled only when the argument after its value is met, so of two
faults the one that is met first wins.

## Main definitions

* `OptionSpec`, `Level`: the options that are known in a place.
* `Reading`: what was read so far.
* `Level.read`: reads arguments up to a command or to the end.
* `UsageFault`: why arguments cannot be used.
-/

namespace Bitemporal

/-- Why arguments lead to no command. -/
inductive UsageFault where
  /-- An option that the command needs is not given. -/
  | missingOption
  /-- An option is not known, or an argument stands where none may. -/
  | unknownArgument
  /-- An option has no value, or an empty one where it may not be. -/
  | missingValue
  /-- An option that takes no value has one. -/
  | unexpectedValue
  /-- An option is given twice. -/
  | repeatedOption
  /-- A command is not known. -/
  | unknownCommand
  /-- There are options but no command. -/
  | missingCommand
  /-- There is nothing at all. -/
  | nothingGiven
  /-- Help is asked for. -/
  | helpAsked
  /-- The version is asked for. -/
  | versionAsked
deriving DecidableEq, Repr

/-- What an option takes. -/
inductive OptionKind where
  /-- No value. -/
  | flag
  /-- One value. -/
  | single
  /-- One value that is not empty. -/
  | path
  /-- A value each time it is given, any number of times. -/
  | many
deriving DecidableEq, Repr

/-- An option that is known in a place. -/
structure OptionSpec where
  /-- The name, without hyphens. -/
  name : String
  /-- What it takes. -/
  kind : OptionKind
  /-- Whether it must be given. -/
  isRequired : Bool := false
deriving DecidableEq, Repr

/-- What was read so far. -/
structure Reading where
  /-- The options given, with their values, in order. -/
  given : List (String × String) := []
  /-- The last option, with its value if it was met, while it is not settled. -/
  pending : Option (OptionSpec × Option String) := none
deriving Repr

namespace Reading

/-- The values of an option. -/
def values (r : Reading) (name : String) : List String :=
  (r.given.filter fun g => g.1 = name).map (·.2)

/-- The value of an option. -/
def value? (r : Reading) (name : String) : Option String := (r.values name).head?

/-- Whether an option is given. -/
def has (r : Reading) (name : String) : Bool := r.given.any fun g => g.1 = name

/-- Whether the next argument is the value of an option. -/
def awaitsValue (r : Reading) : Bool :=
  match r.pending with
  | some (_, none) => true
  | _ => false

/-- Gives an option a value. -/
def give (r : Reading) (o : OptionSpec) (value : String) : Except UsageFault Reading :=
  if o.kind ≠ .many ∧ r.has o.name then .error .repeatedOption
  else if o.kind = .path ∧ value = "" then .error .missingValue
  else .ok { r with given := r.given ++ [(o.name, value)] }

/-- Settles the last option. -/
def settle (r : Reading) : Except UsageFault Reading :=
  match r.pending with
  | none => .ok r
  | some (_, none) => .error .missingValue
  | some (o, some value) => { r with pending := none }.give o value

/-- An argument that is the value of the last option. -/
def supply (r : Reading) (value : String) : Reading :=
  { r with pending := r.pending.map fun p => (p.1, some value) }

end Reading

/-- What is known in a place: behind the program's name or behind a command. -/
structure Level where
  /-- The options. -/
  options : List OptionSpec
  /-- The commands. -/
  commands : List String := []
  /-- Whether the version can be asked for. -/
  hasVersion : Bool := false

namespace Level

/-- An argument that is neither an option nor a command. -/
def stray (l : Level) : UsageFault :=
  if l.commands.isEmpty then .unknownArgument else .unknownCommand

/-- The first argument behind a double hyphen, where a command cannot stand. -/
def strayBehindHyphens (l : Level) (a : String) : UsageFault :=
  if l.commands.contains a then .unknownArgument else l.stray

/-- A request that ends the reading. -/
def request (r : Reading) (fault : UsageFault) : Except UsageFault Reading := do
  let _ ← r.settle
  .error fault

/-- An option by its name, with the value behind its equals sign if it has one. -/
def readLong (l : Level) (r : Reading) (name : String) (value : Option String) :
    Except UsageFault Reading :=
  if name = "help" ∨ (name = "version" ∧ l.hasVersion) then
    if value.isSome then .error .unexpectedValue
    else request r (if name = "help" then .helpAsked else .versionAsked)
  else
    match l.options.find? fun o => o.name = name, value with
    | none, _ => .error .unknownArgument
    | some o, some value =>
      if o.kind = .flag then .error .unexpectedValue else do (← r.settle).give o value
    | some o, none => do
      let r ← r.settle
      if o.kind = .flag then r.give o "true" else .ok { r with pending := some (o, none) }

/-- Letters behind a single hyphen, of which the first decides. -/
def readShort (l : Level) (r : Reading) (letter : Char) : Except UsageFault Reading :=
  if letter = 'h' then request r .helpAsked
  else if letter = 'V' ∧ l.hasVersion then request r .versionAsked
  else .error .unknownArgument

/-- One argument other than a command and a double hyphen. -/
def readOne (l : Level) (r : Reading) (a : String) : Except UsageFault Reading :=
  match a.toList with
  | '-' :: '-' :: option =>
    let name := option.takeWhile fun c => c ≠ '='
    let value := (option.dropWhile fun c => c ≠ '=').tail?.map String.ofList
    l.readLong r (String.ofList name) value
  | '-' :: letter :: _ => l.readShort r letter
  | _ => if r.awaitsValue then .ok (r.supply a) else .error l.stray

/-- Reads up to a command, which is given with what follows it, or to the end. -/
def read (l : Level) (r : Reading) :
    List String → Except UsageFault (Reading × Option (String × List String))
  | [] => .ok (r, none)
  | a :: rest =>
    if ¬ r.awaitsValue ∧ l.commands.contains a then .ok (r, some (a, rest))
    else if a = "--" then
      match rest with
      | [] => .ok (r, none)
      | b :: _ => .error (l.strayBehindHyphens b)
    else do l.read (← l.readOne r a) rest

/-- Reads all arguments of a command. -/
def readAll (l : Level) (args : List String) : Except UsageFault Reading := do
  let (r, _) ← l.read {} args
  let r ← r.settle
  if l.options.any fun o => o.isRequired ∧ ¬ r.has o.name then .error .missingOption
  else return r

end Level

end Bitemporal
