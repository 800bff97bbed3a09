import CoinLedger.Transaction.Basic

/-!
# Transactions for the reader

The lines that show a transaction to a person: its id, then each input and each
output with its fields aligned.
-/

namespace CoinLedger.Transaction

def inputLines (i : Input) (position : Nat) : List String := [
  "     Input " ++ toString position ++ ":",
  "       TXID:      " ++ i.source.toHex,
  "       Out:       " ++ toString i.index.toInt,
  "       Signature: " ++ Hex.encode i.signature,
  "       PubKey:    " ++ Hex.encode i.key]

def outputLines (o : Output) (position : Nat) : List String := [
  "     Output " ++ toString position ++ ":",
  "       Value:  " ++ toString o.value.toNat,
  "       Script: " ++ Hex.encode o.lock]

def lines (tx : Transaction) : List String :=
  ("--- Transaction " ++ tx.id.toHex ++ ":") ::
    (tx.inputs.zipIdx.flatMap (fun (i, n) => inputLines i n) ++
      tx.outputs.zipIdx.flatMap (fun (o, n) => outputLines o n))

/-- The lines as one text, each ended by a line break. -/
def listing (tx : Transaction) : String :=
  String.join (tx.lines.map (· ++ "\n"))

end CoinLedger.Transaction
