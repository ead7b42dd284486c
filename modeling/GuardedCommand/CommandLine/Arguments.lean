/-! # Command-line arguments

`gcl [--config FILE] verify FILE [--prover COMMAND] [--json] [--source FILE]`,
`gcl [--config FILE] vcs FILE` and `gcl [--config FILE] axioms [PATH]`.

Options may stand before and after other arguments, `--config` also before the command. The value of
an option is the next argument or follows a `=`; as an argument of its own it does not start with a
dash. After `--` all arguments are plain. An option may be given once. Options of one letter, `-h`
and `-V`, may be followed by others, which do not count any more.
-/

namespace GuardedCommand

/-- What to do. -/
inductive Action where
  /-- Prove a task. -/
  | verify (path : String) (prover : Option String) (json : Bool) (source : Option String)
  /-- Print the input of the prover. -/
  | vcs (path : String)
  /-- List the axioms. -/
  | axioms (path : String)
  deriving DecidableEq

/-- What the arguments ask for. -/
inductive Invocation where
  /-- An action, perhaps with a configuration file. -/
  | act (config : Option String) (action : Action)
  /-- The usage. -/
  | help
  /-- The version. -/
  | version
  /-- Nothing that makes sense. -/
  | invalid
  deriving DecidableEq

/-- An option with its name and whether it takes a value, which may have to be nonempty. -/
structure Flag where
  /-- The name, with dashes. -/
  name : String
  /-- Whether it takes a value. -/
  hasValue : Bool
  /-- Whether its value may be empty. -/
  emptyAllowed : Bool := false

/-- The arguments of a command as they are found. -/
structure Arguments where
  /-- The plain arguments. -/
  plain : List String := []
  /-- The options with their values. -/
  options : List (String × String) := []

namespace Arguments

/-- The value of an option. -/
def value? (a : Arguments) (name : String) : Option String := a.options.lookup name

/-- Adds an option that is not there yet, unless its value is empty and may not be. -/
def addOption (a : Arguments) (flag : Flag) (value : String) : Option Arguments :=
  if (a.value? flag.name).isSome then none
  else if flag.hasValue ∧ value.isEmpty ∧ !flag.emptyAllowed then none
  else some { a with options := a.options ++ [(flag.name, value)] }

/-- Adds a plain argument, which is not empty. -/
def addPlain (a : Arguments) (value : String) : Option Arguments :=
  if value.isEmpty then none else some { a with plain := a.plain ++ [value] }

end Arguments

/-- Why the arguments of a command are not complete. -/
inductive ArgumentFault where
  /-- They make no sense. -/
  | invalid
  /-- They ask for the usage. -/
  | help
  /-- They ask for the version. -/
  | version
  deriving DecidableEq

/-- Whether an argument stands for itself: it does not start with a dash, or is nothing else. -/
def isPlain (arg : String) : Bool :=
  arg.toList.head? != some '-' || arg == "-"

/-- Whether an argument is one or more options of one letter, the first of them the given one. -/
def startsWithLetter (letter : Char) (arg : String) : Bool :=
  match arg.toList with
  | '-' :: c :: _ => c == letter
  | _ => false

/-- Whether an argument asks for the usage. -/
def asksForHelp (arg : String) : Bool :=
  arg == "--help" || startsWithLetter 'h' arg

/-- Whether an argument asks for the version. -/
def asksForVersion (arg : String) : Bool :=
  arg == "--version" || startsWithLetter 'V' arg

/-- An argument as the name of an option and the value after its `=`. -/
def splitOption (arg : String) : String × Option String :=
  let name := arg.toList.takeWhile (· ≠ '=')
  match arg.toList.drop name.length with
  | _ :: value => (String.ofList name, some (String.ofList value))
  | [] => (arg, none)

/-- Makes sense of an optional step. -/
def orInvalid {α : Type} : Option α → Except ArgumentFault α
  | some a => .ok a
  | none => .error .invalid

/-- The value of an option, attached to it or the next argument, and the arguments left. -/
def Flag.takeValue (flag : Flag) : Option String → List String → Option (String × List String)
  | none, rest =>
    if flag.hasValue then
      match rest with
      | [] => none
      | value :: rest => if isPlain value then some (value, rest) else none
    else some ("", rest)
  | some value, rest => if flag.hasValue then some (value, rest) else none

/-- Taking the value of a flag uses up arguments and adds none. -/
theorem Flag.length_takeValue_le {flag : Flag} {attached : Option String} {value : String}
    {rest left : List String} (h : flag.takeValue attached rest = some (value, left)) :
    left.length ≤ rest.length := by
  cases attached with
  | none =>
    simp only [Flag.takeValue] at h
    split at h
    · cases rest with
      | nil => cases h
      | cons arg args =>
        dsimp only at h
        split at h <;> simp only [Option.some.injEq, Prod.mk.injEq, reduceCtorEq] at h
        rw [← h.2]
        exact Nat.le_succ _
    · simp only [Option.some.injEq, Prod.mk.injEq] at h
      exact h.2 ▸ Nat.le_refl _
  | some arg =>
    simp only [Flag.takeValue] at h
    split at h <;> simp only [Option.some.injEq, Prod.mk.injEq, reduceCtorEq] at h
    exact h.2 ▸ Nat.le_refl _

/-- Reads one option, given the arguments after it, and gives those that are left. -/
def readOption (flags : List Flag) (a : Arguments) (arg : String) (rest : List String) :
    Except ArgumentFault (Arguments × List String) :=
  match flags.find? fun f => f.name = (splitOption arg).1 with
  | none => .error .invalid
  | some flag =>
    match flag.takeValue (splitOption arg).2 rest with
    | none => .error .invalid
    | some (value, left) =>
      match a.addOption flag value with
      | none => .error .invalid
      | some a => .ok (a, left)

/-- Reading an option uses up arguments and adds none. -/
theorem length_readOption_le {flags : List Flag} {a b : Arguments} {arg : String}
    {rest left : List String} (h : readOption flags a arg rest = .ok (b, left)) :
    left.length ≤ rest.length := by
  unfold readOption at h
  split at h
  · cases h
  · split at h
    · cases h
    · rename_i hvalue
      split at h
      · cases h
      · simp only [Except.ok.injEq, Prod.mk.injEq] at h
        rw [← h.2]
        exact Flag.length_takeValue_le hvalue

/-- Adds plain arguments, of which there are at most as many as given. -/
def readPlain (limit : Nat) (a : Arguments) : List String → Except ArgumentFault Arguments
  | [] => .ok a
  | arg :: args =>
    if a.plain.length < limit then do
      let a ← orInvalid (a.addPlain arg)
      readPlain limit a args
    else .error .invalid

/-- Reads the arguments of a command with some options and at most so many plain arguments. -/
def readArguments (flags : List Flag) (limit : Nat) (a : Arguments) :
    List String → Except ArgumentFault Arguments
  | [] => .ok a
  | "--" :: args => readPlain limit a args
  | arg :: args =>
    if asksForHelp arg then .error .help
    else if isPlain arg then
      if a.plain.length < limit then do
        let a ← orInvalid (a.addPlain arg)
        readArguments flags limit a args
      else .error .invalid
    else
      match h : readOption flags a arg args with
      | .error e => .error e
      | .ok (a, rest) =>
        have := length_readOption_le h
        readArguments flags limit a rest
termination_by args => args.length

/-- The option for the configuration file. -/
def configFlag : Flag := { name := "--config", hasValue := true }

/-- The options of a proof. -/
def verifyFlags : List Flag :=
  [configFlag, { name := "--prover", hasValue := true, emptyAllowed := true },
    { name := "--json", hasValue := false }, { name := "--source", hasValue := true }]

/-- The commands. -/
def commandNames : List String := ["verify", "vcs", "axioms", "help"]

/-- Reads a command and its arguments. The usage can be asked for one command. -/
def readAction (command : String) (args : List String) :
    Except ArgumentFault (Option String × Action) :=
  match command with
  | "verify" => do
    let a ← readArguments verifyFlags 1 {} args
    let path ← orInvalid a.plain.head?
    .ok (a.value? "--config",
      .verify path (a.value? "--prover") (a.value? "--json").isSome (a.value? "--source"))
  | "vcs" => do
    let a ← readArguments [configFlag] 1 {} args
    let path ← orInvalid a.plain.head?
    .ok (a.value? "--config", .vcs path)
  | "axioms" => do
    let a ← readArguments [configFlag] 1 {} args
    .ok (a.value? "--config", .axioms (a.plain.head?.getD "."))
  | "help" =>
    match args with
    | [] => .error .help
    | [command] => .error (if commandNames.contains command then .help else .invalid)
    | _ => .error .invalid
  | _ => .error .invalid

/-- Reads the options before the command, and then the command. A configuration file after the
command counts more. -/
def readInvocation (a : Arguments) : List String → Except ArgumentFault (Option String × Action)
  | [] => .error .invalid
  | arg :: args =>
    if asksForHelp arg then .error .help
    else if asksForVersion arg then .error .version
    else if isPlain arg then do
      let (config, action) ← readAction arg args
      .ok (config <|> a.value? "--config", action)
    else
      match h : readOption [configFlag] a arg args with
      | .error e => .error e
      | .ok (a, rest) =>
        have := length_readOption_le h
        readInvocation a rest
termination_by args => args.length

/-- What the arguments ask for. -/
def Invocation.ofArguments (args : List String) : Invocation :=
  match readInvocation {} args with
  | .ok (config, action) => .act config action
  | .error .invalid => .invalid
  | .error .help => .help
  | .error .version => .version

end GuardedCommand
