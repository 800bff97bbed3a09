import Std.Time.DateTime.Timestamp
import CoinLedger.Command.Run
import CoinLedger.Signature.Ecdsa
import CoinLedger.Store.File

/-!
# The program

Reads a command line, the settings and the files of the node, carries out the
command and puts the files back. Errors go to the standard error stream and end
the program with a status other than zero.
-/

namespace CoinLedger.Program

open CoinLedger

/-- The contents of a file, none if it cannot be read. -/
def readFile? (path : String) : IO (Option Bytes) := do
  try
    let file ← IO.FS.readBinFile path
    return some file.toList
  catch _ => return none

def writeFile (path : String) (file : Bytes) : IO Unit :=
  IO.FS.writeBinFile path ⟨file.toArray⟩

def readSettings (path : Option String) : IO (Result Settings) := do
  match path with
  | some path => return Settings.load (← readFile? path)
  | none =>
    let s := Settings.ofNodeId (← IO.getEnv "NODE_ID")
    return s.check.map fun _ => s

def readNode (s : Settings) : IO (Result Node) := do
  let keyring ← readFile? s.keyringPath
  match ← readFile? s.storePath with
  | none => return .ok ⟨s, Store.empty, keyring⟩
  | some file => return (Store.ofFile file).map (⟨s, ·, keyring⟩)

def writeNode (n : Node) : IO Unit := do
  unless n.settings.dataDir.isEmpty do IO.FS.createDirAll n.settings.dataDir
  writeFile n.settings.storePath n.store.toFile
  if let some file := n.keyringFile then writeFile n.settings.keyringPath file

def surroundings : IO Surroundings := do
  let now ← Std.Time.Timestamp.now
  let entropy ← IO.getRandomBytes 64
  return ⟨Int64.ofInt now.toSecondsSinceUnixEpoch.val,
    SecretKey.ofEntropy (Bytes.ofBigEndian entropy.toList)⟩

/-- The words for an error, with advice if the store is corrupt. -/
def complaint (e : LedgerError) : String :=
  "Error: " ++ e.message ++ if e.isFatal then " (run reindexutxo to rebuild the index)" else ""

def usage : String :=
  "Usage: coinledger [--config FILE] COMMAND\n" ++
  "Commands: " ++ ", ".intercalate (Command.commands.map Prod.fst)

def runCommand (c : Command) (s : Settings) : IO UInt32 := do
  match ← readNode s with
  | .error e =>
    IO.eprintln (complaint e)
    return 1
  | .ok node =>
    let (outcome, node) := node.run Secp256k1.scheme (← surroundings) c
    writeNode node
    match outcome with
    | .ok lines =>
      lines.forM IO.println
      return 0
    | .error e =>
      IO.eprintln (complaint e)
      return 1

end CoinLedger.Program

open CoinLedger Program in
def main (words : List String) : IO UInt32 := do
  match Command.parse words with
  | .error .displayHelp =>
    IO.println usage
    return 0
  | .error _ =>
    IO.eprintln usage
    return 2
  | .ok invocation =>
    match ← readSettings invocation.settingsPath with
    | .error e =>
      IO.eprintln (complaint e)
      return 1
    | .ok s => runCommand invocation.command s
