import CoinLedger.Main
import CoinLedger.Proofs.TextRoundTrip
import CoinLedger.Proofs.JsonRoundTrip
import CoinLedger.Proofs.Ancestry
import CoinLedger.Proofs.Contents
import CoinLedger.Proofs.RoundTrip
import CoinLedger.Proofs.CanonicalForm
import CoinLedger.Proofs.Truncation
import CoinLedger.Proofs.IndexSteps
import CoinLedger.Proofs.Rebuild
import CoinLedger.Proofs.Checks
import CoinLedger.Proofs.Runs
import CoinLedger.Proofs.NeverHalts
import CoinLedger.Proofs.Halting
import CoinLedger.Proofs.Placement
import CoinLedger.Proofs.Provenance
import CoinLedger.Proofs.SpendOnce
import CoinLedger.Proofs.Drift
import CoinLedger.Proofs.Ownership
import CoinLedger.Proofs.Mining
import CoinLedger.Proofs.ChainStructure
import CoinLedger.Proofs.Delivery
import CoinLedger.Proofs.Acceptance
import CoinLedger.Proofs.Worth
import CoinLedger.Proofs.Accounting
import CoinLedger.Proofs.Payments
import CoinLedger.Proofs.RewardNotes
import CoinLedger.Proofs.Supply
import CoinLedger.Proofs.MerkleTree
import CoinLedger.Proofs.HashCommitment
import CoinLedger.Proofs.MerkleLevels
import CoinLedger.Proofs.ForkChoice
import CoinLedger.Proofs.Recovery
import CoinLedger.Proofs.SpendingGuard
import CoinLedger.Proofs.Increment
import CoinLedger.Proofs.CoinSelection
import CoinLedger.Proofs.BuiltPayments
import CoinLedger.Proofs.Signing
import CoinLedger.Proofs.MiningJobs
import CoinLedger.Proofs.Keyrings
import CoinLedger.Proofs.SharedKeyring
import CoinLedger.Proofs.SigningDigests
import CoinLedger.Proofs.CoinBalance
import CoinLedger.Proofs.NonceSearch
import CoinLedger.Proofs.FailedSigning
import CoinLedger.Proofs.Base58RoundTrip
import CoinLedger.Proofs.Addresses
import CoinLedger.Proofs.KeyringFiles
import CoinLedger.Proofs.Targets
import CoinLedger.Proofs.Coinbases
