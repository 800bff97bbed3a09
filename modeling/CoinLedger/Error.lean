import CoinLedger.Codec.Reader
import CoinLedger.Wallet.Address

/-!
# Errors

Every way in which the ledger refuses something, by its cause; `message` gives
the words. Only a corrupt store is fatal: it needs someone to rebuild the index
before the ledger writes again.
-/

namespace CoinLedger

/-- Why a block is refused. -/
inductive ValidationError where
  | noTransactions
  | invalidProofOfWork
  | missingCoinbase
  | coinbaseNotFirst
  | rewardOverflow
  | excessiveReward (limit found : UInt64)
  | invalidTransactionId
  | invalidGenesisHeight
  | unknownParent
  | invalidHeight (parent found : UInt64)
  /-- The parent has the greatest height there is, so no height follows it. -/
  | heightExhausted
deriving DecidableEq

namespace ValidationError

def message : ValidationError → String
  | noTransactions => "Block has no transactions"
  | invalidProofOfWork => "Invalid proof of work"
  | missingCoinbase => "Missing coinbase transaction"
  | coinbaseNotFirst => "Coinbase not in first position"
  | rewardOverflow => "Coinbase output values overflow"
  | excessiveReward limit found =>
      "Coinbase pays " ++ toString found.toNat ++ ", reward is " ++ toString limit.toNat
  | invalidTransactionId => "Transaction id does not match its content"
  | invalidGenesisHeight => "Genesis block must have height 0"
  | unknownParent => "Parent block is unknown"
  | invalidHeight parent found =>
      "Block height " ++ toString found.toNat ++ " does not follow parent height " ++
        toString parent.toNat
  | heightExhausted => "attempt to add with overflow"

end ValidationError

/-- What a lookup did not find. -/
inductive Missing where
  | chain
  | block (hash : Digest)
  | transaction (id : Digest)
  /-- The output at a place of one transaction, referred to by another. -/
  | output (source : Digest) (index : Int32) (spender : Digest)
  | key (address : Address)
deriving DecidableEq

def Missing.message : Missing → String
  | .chain => "no existing blockchain"
  | .block hash => "block " ++ hash.toHex
  | .transaction id => "transaction " ++ id.toHex
  | .output source index spender =>
      "output " ++ source.toHex ++ ":" ++ toString index.toInt ++
        " referenced by transaction " ++ spender.toHex
  | .key address => "key for address " ++ address.text

/-- What is wrong with a store. -/
inductive Corruption where
  | undecodable (cause : CodecError)
  /-- A digest in a key or in the tip record has a wrong length. -/
  | badDigest (cause : Digest.Error)
  | missingTip (hash : Digest)
  /-- The links from the tip run in a circle. -/
  | endlessChain
  /-- The index does not hold an output that a block consumes. -/
  | notUnspent (source : Digest) (index : Int32)
  /-- The index holds an output at a place that no input can refer to. -/
  | placeOutOfRange (place : UInt32)
  /-- Corruption was met before, and the index has not been rebuilt since. -/
  | halted
deriving DecidableEq

def Corruption.message : Corruption → String
  | .undecodable cause => "undecodable record: " ++ cause.message
  | .badDigest cause => cause.message
  | .missingTip hash => "tip block " ++ hash.toHex ++ " missing"
  | .endlessChain => "chain does not reach a genesis block"
  | .notUnspent source index =>
      "UTXO index has no unspent output " ++ source.toHex ++ ":" ++ toString index.toInt ++
        "; reindex required"
  | .placeOutOfRange place => "output index " ++ toString place.toNat ++ " out of range"
  | .halted => "ledger halted after store corruption; reindex required"

/-- A sum of amounts that is too large to be an amount. -/
inductive OversizedSum where
  | balance (lock : Bytes)
  | spendable (lock : Bytes)
deriving DecidableEq

def OversizedSum.message : OversizedSum → String
  | .balance lock => "balance of " ++ Hex.encode lock
  | .spendable lock => "spendable outputs of " ++ Hex.encode lock

/-- What is wrong with an address. -/
inductive BadAddress where
  | unreadable (address : Address) (fault : Address.Fault)
  | foreignKey (address : Address)
deriving DecidableEq

def BadAddress.message : BadAddress → String
  | .unreadable address fault => address.text ++ ": " ++ fault.message
  | .foreignKey address => address.text ++ " does not match its stored key"

/-- What is wrong with a configuration, or with what it is used for. -/
inductive ConfigError where
  | difficultyOutOfRange (difficulty : UInt32)
  | emptyNodeId
  | chainExists
  | invalidSecretKey
deriving DecidableEq

def ConfigError.message : ConfigError → String
  | .difficultyOutOfRange difficulty =>
      "difficulty must be between 1 and 255, got " ++ toString difficulty.toNat
  | .emptyNodeId => "node_id must not be empty"
  | .chainExists => "blockchain already exists"
  | .invalidSecretKey => "Invalid secret key: malformed or out-of-range secret key"

inductive LedgerError where
  | notFound (what : Missing)
  | insufficientFunds (available requested : UInt64)
  | valueOverflow (sum : OversizedSum)
  /-- A mined block was stored while another block holds the tip. -/
  | superseded (hash : Digest)
  | verificationFailed (id : Digest)
  | invalidAddress (cause : BadAddress)
  | corruptStore (cause : Corruption)
  | emptyBlock
  | invalidBlock (cause : ValidationError)
  | cancelled
  | config (cause : ConfigError)
  /-- A file is missing or is not UTF-8. -/
  | unreadableFile
  | malformedJson
deriving DecidableEq

namespace LedgerError

def message : LedgerError → String
  | notFound what => "not found: " ++ what.message
  | insufficientFunds available requested =>
      "insufficient funds: have " ++ toString available.toNat ++ ", need " ++
        toString requested.toNat
  | valueOverflow sum => "value overflow: " ++ sum.message
  | superseded hash =>
      "mined block " ++ hash.toHex ++ " was superseded and is not on the active chain"
  | verificationFailed id => "signature verification failed for transaction " ++ id.toHex
  | invalidAddress cause => "invalid address: " ++ cause.message
  | corruptStore cause => "corrupt store: " ++ cause.message
  | emptyBlock => "cannot seal a block without transactions"
  | invalidBlock cause => "invalid block: " ++ cause.message
  | cancelled => "mining cancelled"
  | config cause => "invalid configuration: " ++ cause.message
  | unreadableFile => "I/O error: unreadable file"
  | malformedJson => "JSON error: malformed document"

/-- Only store corruption stops the ledger. -/
def isFatal : LedgerError → Bool
  | corruptStore _ => true
  | _ => false

/-- A record in the store that cannot be decoded. -/
def undecodable (cause : CodecError) : LedgerError :=
  corruptStore (.undecodable cause)

end LedgerError

abbrev Result := Except LedgerError

end CoinLedger
