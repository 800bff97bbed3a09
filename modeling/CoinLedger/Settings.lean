import CoinLedger.Json.Grammar
import CoinLedger.Rules
import CoinLedger.Text.Utf8

/-!
# Settings of a node

Where a node keeps its files, how several nodes share a directory, and the
difficulty and reward of its chain. A settings file is a JSON record whose fields
may all be missing; fields of other names are of no concern.
-/

namespace CoinLedger

structure Settings where
  dataDir : String
  nodeId : String
  difficulty : UInt32
  blockReward : UInt64
deriving DecidableEq

namespace Settings

def default : Settings := ⟨"./tmp", "3000", 18, 100⟩

/-- The difficulty of settings that can be used, or the first thing that is wrong
with them: the difficulty itself, then the name of the node. -/
def check (s : Settings) : Result Difficulty := do
  let difficulty ← Difficulty.ofBits s.difficulty
  if s.nodeId.isEmpty then throw (.config .emptyNodeId)
  return difficulty

/-- The rules of a chain under these settings. -/
def rules (s : Settings) (scheme : SignatureScheme) : Result Rules := do
  return ⟨← s.check, s.blockReward, scheme⟩

/-! ## Files of a node -/

/-- The path of a file in a directory. -/
def join (directory name : String) : String :=
  if directory.isEmpty then name
  else if directory.endsWith "/" then directory ++ name
  else directory ++ "/" ++ name

def storePath (s : Settings) : String := join s.dataDir ("blocks_" ++ s.nodeId)

def keyringPath (s : Settings) : String := join s.dataDir ("wallets_" ++ s.nodeId ++ ".json")

/-! ## Reading -/

open Json (Value)

def fieldNames : List String := ["data_dir", "node_id", "difficulty", "block_reward"]

/-- The value of a field by its reader, the default if the field is missing, and
none if it is there and cannot be read. -/
def fieldOr {α : Type} (default : α) (read : Value → Option α) : Option Value → Option α
  | none => some default
  | some v => read v

def ofJson? (v : Value) : Option Settings := do
  match ← v.fields? fieldNames with
  | [dataDir, nodeId, difficulty, blockReward] =>
    return {
      dataDir := ← fieldOr default.dataDir Value.text? dataDir
      nodeId := ← fieldOr default.nodeId Value.text? nodeId
      difficulty :=
        ← fieldOr default.difficulty (fun v => (v.natural? UInt32.size).map UInt32.ofNat) difficulty
      blockReward :=
        ← fieldOr default.blockReward (fun v => (v.natural? UInt64.size).map UInt64.ofNat)
            blockReward }
  | _ => none

end Settings

/-- The JSON document in a file, given by its bytes. -/
def Json.ofFile (file : Bytes) : Result Json.Value :=
  match Text.decode? file with
  | none => .error .unreadableFile
  | some text =>
    match Json.parse? text with
    | none => .error .malformedJson
    | some v => .ok v

namespace Settings

/-- Reads and checks a settings file, none if there is no such file. -/
def load : Option Bytes → Result Settings
  | none => .error .unreadableFile
  | some file => do
    match ofJson? (← Json.ofFile file) with
    | none => throw .malformedJson
    | some s => do
      discard s.check
      return s

/-- The settings of a node without a file, by the name it is given; an empty name
is none. -/
def ofNodeId (nodeId? : Option String) : Settings :=
  match nodeId? with
  | some nodeId => if nodeId.isEmpty then default else { default with nodeId := nodeId }
  | none => default

end Settings

end CoinLedger
