import CoinLedger.Command.Line
import CoinLedger.Ledger.Mining
import CoinLedger.Transaction.Listing
import CoinLedger.Wallet.Keyring

/-!
# Carrying out commands

A node works on its settings, its store and its keyring file. A command answers
with the lines it prints, or with an error, and leaves the node as it then is.
What a command needs from the outside world, the time and a fresh secret key, is
handed to it.
-/

namespace CoinLedger

structure Node where
  settings : Settings
  store : Store
  /-- The contents of the keyring file, none if there is no such file. -/
  keyringFile : Option Bytes

/-- What a command takes from the world around it. -/
structure Surroundings where
  /-- Seconds since 1970. -/
  timestamp : Int64
  /-- A key that nobody else has. -/
  freshKey : SecretKey

namespace Node

/-- A ledger on the node's store. -/
def ledger (S : SignatureScheme) (n : Node) : Result Ledger := do
  return Ledger.onStore (← n.settings.rules S) n.store

/-- A ledger on the node's store, which must hold a chain already. -/
def openLedger (S : SignatureScheme) (n : Node) : Result Ledger := do
  let l ← n.ledger S
  discard (Chain.tip l.store)
  return l

/-- The locking hash that an address given on the command line spells. -/
def lockOf (address : String) : Result Bytes :=
  (Address.mk address).lock.mapError fun fault => .invalidAddress (.unreadable ⟨address⟩ fault)

/-- Finishes a command that wrote through a ledger. -/
def afterWrite {α : Type} (n : Node) (print : α → List String) :
    Result α × Ledger → Result (List String) × Node
  | (outcome, l) => (outcome.map print, { n with store := l.store })

/-- Refuses a command and leaves the node as it is. -/
def refuse (n : Node) (e : LedgerError) : Result (List String) × Node := (.error e, n)

/-! ## Commands that write -/

/-- The first block as it is found in the store afterwards. -/
def createBlockchain (S : SignatureScheme) (n : Node) (world : Surroundings) (address : String) :
    Result (List String) × Node :=
  match (do return (← lockOf address, ← n.ledger S) : Result (Bytes × Ledger)) with
  | .error e => n.refuse e
  | .ok (lock, l) =>
    match l.createGenesis world.timestamp lock with
    | (.error e, l) => ({ n with store := l.store } : Node).refuse e
    | (.ok _, l) =>
      let stored := do Chain.block l.store (← Chain.tip l.store)
      n.afterWrite (fun b => ["Genesis block " ++ b.hash.toHex ++ " created", "Done!"]) (stored, l)

/-- A payment ready to be mined or handed on. -/
structure Order where
  ledger : Ledger
  payment : Transaction
  sender : Bytes

/-- Builds the payment that a command asks for. -/
def order (S : SignatureScheme) (n : Node) (keyring : Keyring) (sender recipient : String)
    (amount : UInt64) : Result Order := do
  let lock ← lockOf recipient
  let key ← keyring.key ⟨sender⟩
  let l ← n.openLedger S
  return ⟨l, ← l.newTransaction key lock amount, S.lockOf key⟩

def minedLines (b : Block) : List String := [
  "Mined block " ++ b.hash.toHex ++ " at height " ++ toString b.height.toNat,
  "Success!"]

def send (S : SignatureScheme) (n : Node) (world : Surroundings) (keyring : Keyring)
    (sender recipient : String) (amount : UInt64) (mine : Bool) : Result (List String) × Node :=
  match n.order S keyring sender recipient amount with
  | .error e => n.refuse e
  | .ok o =>
    if mine then
      match o.ledger.startMining [o.payment] o.sender with
      | .error e => n.refuse e
      | .ok job => n.afterWrite minedLines (o.ledger.finishMining world.timestamp job)
    else (.ok [Hex.encode (Record.encode o.payment)], n)

def createWallet (S : SignatureScheme) (n : Node) (world : Surroundings) (keyring : Keyring) :
    Result (List String) × Node :=
  let keyring := keyring.insert S world.freshKey
  (.ok ["New address is: " ++ (S.addressOf world.freshKey).text],
    { n with keyringFile := some (Bytes.ofText keyring.render) })

def reindex (S : SignatureScheme) (n : Node) : Result (List String) × Node :=
  match n.openLedger S with
  | .error e => n.refuse e
  | .ok l =>
    n.afterWrite
      (fun count => ["Done! There are " ++ toString count ++ " transactions in the UTXO set."])
      l.reindex

/-! ## Commands that read -/

def getBalance (S : SignatureScheme) (n : Node) (address : String) : Result (List String) := do
  let lock ← lockOf address
  let l ← n.openLedger S
  let balance ← Unspent.balance l.store lock
  return ["Balance of \x27" ++ address ++ "\x27: " ++ toString balance.toNat]

/-- The lines that show a block, its transactions each followed by an empty one. -/
def blockLines (r : Rules) (b : Block) : List String := [
    "============ Block " ++ b.hash.toHex ++ " ============",
    "Height: " ++ toString b.height.toNat,
    "Prev. block: " ++ b.parent.toHex,
    "Timestamp: " ++ toString b.timestamp.toInt,
    "Nonce: " ++ toString b.nonce.toNat,
    "PoW: " ++ toString (r.difficulty.isSealed b)] ++
  b.transactions.flatMap (fun tx => tx.lines ++ [""]) ++ [""]

def printChain (S : SignatureScheme) (n : Node) : Result (List String) := do
  let l ← n.openLedger S
  return (← Chain.blocks l.store).flatMap (blockLines l.rules)

/-! ## All commands -/

/-- Carries out a command. The settings and the keyring are looked at first. -/
def run (S : SignatureScheme) (n : Node) (world : Surroundings) (c : Command) :
    Result (List String) × Node :=
  let ready := do
    discard n.settings.check
    Keyring.load S n.keyringFile
  match ready with
  | .error e => n.refuse e
  | .ok keyring =>
    match c with
    | .createBlockchain address => n.createBlockchain S world address
    | .getBalance address => (n.getBalance S address, n)
    | .send sender recipient amount mine => n.send S world keyring sender recipient amount mine
    | .printChain => (n.printChain S, n)
    | .createWallet => n.createWallet S world keyring
    | .listAddresses => (.ok (keyring.addresses.map Address.text), n)
    | .reindex => n.reindex S

end Node

end CoinLedger
