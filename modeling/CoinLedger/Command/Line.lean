import CoinLedger.Command.Options

/-!
# Command lines

The commands of the program with their options, and the reading of a whole
command line. A path of a settings file may be given before and behind the name
of the command; the one behind it counts.
-/

namespace CoinLedger

/-- What the program can be told to do. -/
inductive Command where
  /-- Begin a chain and pay the first reward to an address. -/
  | createBlockchain (address : String)
  | getBalance (address : String)
  /-- Pay an amount, and mine a block with the payment if `mine` is set. -/
  | send (sender recipient : String) (amount : UInt64) (mine : Bool)
  | printChain
  | createWallet
  | listAddresses
  | reindex
deriving DecidableEq

namespace Command

structure Invocation where
  settingsPath : Option String
  command : Command
deriving DecidableEq

/-! ## Levels -/

def configOption : Opt := ⟨"config", some 'c', .path⟩

def helpOption : Opt := ⟨"help", some 'h', .help⟩

def addressOption : Opt := ⟨"address", none, .text⟩

def sendOptions : List Opt := [
  ⟨"from", none, .text⟩,
  ⟨"to", none, .text⟩,
  ⟨"amount", none, .amount⟩,
  ⟨"mine", none, .flag⟩]

/-- The commands by name, each with the options that it alone has. -/
def commands : List (String × List Opt) := [
  ("createblockchain", [addressOption]),
  ("getbalance", [addressOption]),
  ("send", sendOptions),
  ("printchain", []),
  ("createwallet", []),
  ("listaddresses", []),
  ("reindexutxo", [])]

/-- The command that explains the others. -/
def helpName : String := "help"

def topLevel : Level := ⟨[configOption, helpOption], helpName :: commands.map Prod.fst⟩

def commandLevel (own : List Opt) : Level := ⟨configOption :: helpOption :: own, []⟩

/-! ## Reading a whole line -/

def required (g : Given) (name : String) : Except UsageError String :=
  match g.value? name with
  | some value => .ok value
  | none => .error .missingRequiredArgument

def requiredAmount (g : Given) (name : String) : Except UsageError UInt64 := do
  match amount? (← required g name) with
  | some n => return n
  | none => throw .valueValidation

/-- The command of a name with the options it was given. -/
def ofGiven (name : String) (g : Given) : Except UsageError Command :=
  match name with
  | "createblockchain" => return .createBlockchain (← required g "address")
  | "getbalance" => return .getBalance (← required g "address")
  | "send" => do
    let sender ← required g "from"
    let recipient ← required g "to"
    return .send sender recipient (← requiredAmount g "amount") (g.has "mine")
  | "printchain" => return .printChain
  | "createwallet" => return .createWallet
  | "listaddresses" => return .listAddresses
  | "reindexutxo" => return .reindex
  | _ => throw .invalidSubcommand

/-- What the help command answers: it takes the name of one command, or none. -/
def helpOn : List String → UsageError
  | [] => .displayHelp
  | [name] => if name ∈ topLevel.commands then .displayHelp else .invalidSubcommand
  | _ => .invalidSubcommand

/-- What a line without a command is answered. -/
def withoutCommand (top : Given) : UsageError :=
  if top.options.isEmpty then .displayHelpOnMissingArgumentOrSubcommand else .missingSubcommand

/-- Reads the words behind the name of the program. Mistakes behind the name of
the command come before a value that was put off in front of it. -/
def parse (words : List String) : Except UsageError Invocation := do
  match ← topLevel.read .nothing words with
  | (top, none) => throw (withoutCommand (← top.settle))
  | (top, some (name, rest)) =>
    if name = helpName then throw (helpOn rest)
    let (own, _) ← (commandLevel ((commands.lookup name).getD [])).read .nothing rest
    let own ← own.settle
    let command ← ofGiven name own
    let top ← top.settle
    return ⟨own.value? configOption.name <|> top.value? configOption.name, command⟩

end Command

end CoinLedger
