/-!
# Options on a command line

A command line has levels: first come the options of the program, then the name
of a command, then the options of that command. This module reads one level. An
option with a value is given as `--name value`, `--name=value`, `-n value`,
`-nvalue` or `-n=value`, a flag as `--name` or `-n`; short ones can be run
together. A lone `--` makes plain words of the rest.

A value that stands apart from its option is only looked at when the next option
comes or the level ends. A word that cannot be placed is reported at once. So a
bad value comes before every later mistake except an unknown option, an unwanted
attached value and a word too many.
-/

namespace CoinLedger.Command

/-- Why a command line is not carried out. -/
inductive UsageError where
  /-- A word where a command is expected names none. -/
  | invalidSubcommand
  | unknownArgument
  | missingRequiredArgument
  /-- An option without its value, or an empty path. -/
  | invalidValue
  /-- A value that is no amount. -/
  | valueValidation
  /-- A flag with a value. -/
  | tooManyValues
  /-- An option or a flag given twice. -/
  | argumentConflict
  /-- Options but no command. -/
  | missingSubcommand
  | displayHelp
  /-- Nothing at all, which asks for help. -/
  | displayHelpOnMissingArgumentOrSubcommand
deriving DecidableEq

/-! ## Options and their values -/

inductive Kind where
  | text
  /-- A path, which must not be empty. -/
  | path
  /-- A number of coins. -/
  | amount
  | flag
  /-- A flag that asks for help and ends the reading. -/
  | help
deriving DecidableEq

structure Opt where
  name : String
  letter : Option Char
  kind : Kind
deriving DecidableEq

/-- A whole number below `2 ^ 64`, in decimal digits behind a plus sign or none. -/
def amount? (text : String) : Option UInt64 :=
  let digits := match text.toList with
    | '+' :: rest => rest
    | cs => cs
  if digits.isEmpty || !digits.all Char.isDigit then none
  else
    let n := digits.foldl (fun n c => 10 * n + (c.toNat - 48)) 0
    if n < UInt64.size then some (UInt64.ofNat n) else none

/-- What is wrong with a value, if anything is. -/
def Kind.objection? (kind : Kind) (value : String) : Option UsageError :=
  match kind with
  | .path => if value.isEmpty then some .invalidValue else none
  | .amount => if (amount? value).isNone then some .valueValidation else none
  | _ => none

/-- What one level admits: options, and the names of commands that end it. -/
structure Level where
  options : List Opt
  commands : List String

namespace Level

def named? (level : Level) (name : String) : Option Opt :=
  level.options.find? (·.name == name)

def lettered? (level : Level) (letter : Char) : Option Opt :=
  level.options.find? (·.letter == some letter)

/-- The complaint about a plain word that is neither a command nor a value. -/
def misplaced (level : Level) : UsageError :=
  if level.commands.isEmpty then .unknownArgument else .invalidSubcommand

/-- The complaint about the first word behind `--`. -/
def misplacedBehindDashes (level : Level) (word : String) : UsageError :=
  if word ∈ level.commands then .unknownArgument else level.misplaced

end Level

/-! ## Words -/

/-- What a word looks like. -/
inductive Word where
  /-- `--` alone. -/
  | dashes
  | long (name : String) (attached : Option String)
  | short (letters : List Char)
  | plain

def Word.ofString (word : String) : Word :=
  match word.toList with
  | ['-', '-'] => .dashes
  | '-' :: '-' :: rest =>
    let name := String.ofList (rest.takeWhile (· != '='))
    match rest.dropWhile (· != '=') with
    | [] => .long name none
    | _ :: attached => .long name (some (String.ofList attached))
  | '-' :: c :: rest => .short (c :: rest)
  | _ => .plain

/-! ## Reading -/

/-- What has been read of a level. -/
structure Given where
  /-- The options whose values are in order. -/
  options : List (String × String)
  /-- The option read last, if its value is still to be looked at or to come. -/
  pending : Option (Opt × Option String)

namespace Given

def nothing : Given := ⟨[], none⟩

def value? (g : Given) (name : String) : Option String := g.options.lookup name

def has (g : Given) (name : String) : Bool := (g.value? name).isSome

/-- Whether the next word is the value of an option. -/
def awaitsValue (g : Given) : Bool :=
  match g.pending with
  | some (_, none) => true
  | _ => false

/-- Takes in an option with its value. -/
def put (g : Given) (o : Opt) (value : String) : Except UsageError Given :=
  if g.has o.name then .error .argumentConflict
  else
    match o.kind.objection? value with
    | some e => .error e
    | none => .ok { g with options := g.options ++ [(o.name, value)] }

/-- Looks at the value that was put off. -/
def settle (g : Given) : Except UsageError Given :=
  match g.pending with
  | none => .ok g
  | some (_, none) => .error .invalidValue
  | some (o, some value) => put { g with pending := none } o value

/-- Takes in an option whose value is at hand. -/
def give (g : Given) (o : Opt) (value : String) : Except UsageError Given := do
  put (← settle g) o value

/-- Leaves the value of an option to the next word. -/
def await (g : Given) (o : Opt) : Except UsageError Given := do
  return { ← settle g with pending := some (o, none) }

def askHelp (g : Given) : Except UsageError Given := do
  discard (settle g)
  throw .displayHelp

/-- Reads `--name` or `--name=attached`. -/
def readLong (level : Level) (g : Given) (name : String) (attached : Option String) :
    Except UsageError Given :=
  match level.named? name with
  | none => .error .unknownArgument
  | some o =>
    match o.kind, attached with
    | .flag, none => g.give o ""
    | .help, none => g.askHelp
    | .flag, some _ | .help, some _ => .error .tooManyValues
    | _, none => g.await o
    | _, some value => g.give o value

/-- Reads the letters behind a single dash. -/
def readShort (level : Level) : Given → List Char → Except UsageError Given
  | g, [] => .ok g
  | g, c :: rest =>
    match level.lettered? c with
    | none => .error .unknownArgument
    | some o =>
      match o.kind, rest with
      | .flag, rest => do readShort level (← g.give o "") rest
      | .help, _ => g.askHelp
      | _, [] => g.await o
      | _, '=' :: value => g.give o (String.ofList value)
      | _, value => g.give o (String.ofList value)

/-- Reads a word that is no option. -/
def readPlain (level : Level) (g : Given) (word : String) : Except UsageError Given :=
  match g.pending with
  | some (o, none) => .ok { g with pending := some (o, some word) }
  | _ => .error level.misplaced

end Given

/-- Reads a level up to the name of a command. Returns what was given, with the
last value still to be settled, and the command with the words behind it. -/
def Level.read (level : Level) :
    Given → List String → Except UsageError (Given × Option (String × List String))
  | g, [] => .ok (g, none)
  | g, word :: rest =>
    if !g.awaitsValue && word ∈ level.commands then .ok (g, some (word, rest))
    else
      match Word.ofString word with
      | .dashes =>
        match rest with
        | [] => .ok (g, none)
        | next :: _ => .error (level.misplacedBehindDashes next)
      | .long name attached => do level.read (← g.readLong level name attached) rest
      | .short letters => do level.read (← g.readShort level letters) rest
      | .plain => do level.read (← g.readPlain level word) rest

end CoinLedger.Command
