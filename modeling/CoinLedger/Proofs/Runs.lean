import CoinLedger.Proofs.Checks
import CoinLedger.Proofs.TextRoundTrip
import CoinLedger.Signature.Ecdsa
import Mathlib.Data.List.Induction

/-!
# Runs of a ledger

A session is a ledger with the candidates that have been put together on it and may
still be sealed. Requests come in any order; in particular any number of searches
may be open, and others may write between a candidate and its commit.

`Contents.Step` lists what one request can do to the contents of the store, and
`Session.perform_sound` shows that no request does anything else. It also says what
the answer of a request tells about the store: unless a mined block was superseded,
an error means that nothing has been written. `Session.run_sound` takes this along
whole runs that start from an empty store.

The only condition on a run is that it fits: lists and byte strings are counted in
64 bits, and so are the outputs of all its blocks together.
-/

namespace CoinLedger

structure Session where
  ledger : Ledger
  /-- Candidates that have been put together, the latest first. -/
  candidates : List Candidate

/-- What a ledger is asked to do. -/
inductive Request
  | genesis (timestamp : Int64) (lock : Bytes)
  | accept (b : Block)
  /-- Put a candidate together. -/
  | propose (txs : List Transaction) (miner : Bytes)
  /-- Seal a candidate that has been put together, and commit it. -/
  | finish (timestamp : Int64) (k : Candidate) (calledOff : Schedule)
  | mine (timestamp : Int64) (txs : List Transaction) (miner : Bytes) (calledOff : Schedule)
  | pay (sender : SecretKey) (recipient : Bytes) (amount : UInt64)
  | reindex

namespace Session

/-- A session on an empty store. -/
def start (rules : Rules) : Session := ⟨Ledger.onStore rules Store.empty, []⟩

/-- The session after an operation of its ledger. -/
def adopt {α : Type} (σ : Session) (result : Result α × Ledger) : Result Unit × Session :=
  (discard result.1, { σ with ledger := result.2 })

/-- The session after a job has been started, or not. -/
def keepJob (σ : Session) : Result MiningJob → Result Unit × Session
  | .ok job => (.ok (), { σ with candidates := job.candidate :: σ.candidates })
  | .error e => (.error e, σ)

/-- Carries out a request; the answer keeps only whether there was an error. -/
def perform (σ : Session) : Request → Result Unit × Session
  | .genesis timestamp lock => σ.adopt (σ.ledger.createGenesis timestamp lock)
  | .accept b => σ.adopt (σ.ledger.acceptBlock b)
  | .propose txs miner => σ.keepJob (σ.ledger.startMining txs miner)
  | .finish timestamp k calledOff =>
    if k ∈ σ.candidates then σ.adopt (σ.ledger.mineCandidate timestamp k calledOff)
    else (.error .cancelled, σ)
  | .mine timestamp txs miner calledOff =>
    σ.adopt (σ.ledger.mineBlock timestamp txs miner calledOff)
  | .pay sender recipient amount =>
    (discard (σ.ledger.newTransaction sender recipient amount), σ)
  | .reindex => σ.adopt σ.ledger.reindex

def run (σ : Session) (requests : List Request) : Session :=
  requests.foldl (fun σ r => (σ.perform r).2) σ

end Session

/-! ## What fits -/

namespace Request

/-- The lengths in the blocks of a request can be written down. -/
def Fits : Request → Prop
  | genesis _ lock => lock.length < 2 ^ 64
  | accept b => b.Fits
  | finish _ k _ => k.transactions.length < 2 ^ 64 ∧ ∀ tx ∈ k.transactions, tx.Fits
  | mine _ txs miner _ => miner.length < 2 ^ 60 ∧ txs.length + 1 < 2 ^ 64 ∧ ∀ tx ∈ txs, tx.Fits
  | _ => True

instance : (r : Request) → Decidable r.Fits
  | genesis _ lock => inferInstanceAs (Decidable (lock.length < 2 ^ 64))
  | accept b => inferInstanceAs (Decidable b.Fits)
  | finish _ k _ => inferInstanceAs
      (Decidable (k.transactions.length < 2 ^ 64 ∧ ∀ tx ∈ k.transactions, tx.Fits))
  | mine _ txs miner _ => inferInstanceAs
      (Decidable (miner.length < 2 ^ 60 ∧ txs.length + 1 < 2 ^ 64 ∧ ∀ tx ∈ txs, tx.Fits))
  | propose .. => instDecidableTrue
  | pay .. => instDecidableTrue
  | reindex => instDecidableTrue

/-- A payment is built and signed, and writes nothing. -/
def IsPayment : Request → Prop
  | pay .. => True
  | _ => False

/-- How many outputs the block of a request has. -/
def outputCount : Request → Nat
  | genesis .. => 1
  | accept b => CoinLedger.outputCount b.transactions
  | finish _ k _ => CoinLedger.outputCount k.transactions
  | mine _ txs _ _ => CoinLedger.outputCount txs + 1
  | _ => 0

/-- How many outputs the blocks of some requests have together. -/
def totalOutputCount (requests : List Request) : Nat := (requests.map outputCount).sum

end Request

/-- All lengths in a run can be written down in 64 bits, and the outputs of its
blocks can be counted in as many. -/
structure RunFits (requests : List Request) : Prop where
  each : ∀ r ∈ requests, r.Fits
  count : Request.totalOutputCount requests < 2 ^ 64

instance (requests : List Request) : Decidable (RunFits requests) :=
  decidable_of_iff ((∀ r ∈ requests, r.Fits) ∧ Request.totalOutputCount requests < 2 ^ 64)
    ⟨fun ⟨h₁, h₂⟩ => ⟨h₁, h₂⟩, fun ⟨h₁, h₂⟩ => ⟨h₁, h₂⟩⟩

theorem Request.totalOutputCount_snoc (requests : List Request) (r : Request) :
    totalOutputCount (requests ++ [r]) = totalOutputCount requests + r.outputCount := by
  simp [totalOutputCount]

theorem RunFits.init {requests : List Request} {r : Request} (h : RunFits (requests ++ [r])) :
    RunFits requests where
  each r' hr' := h.each r' (List.mem_append_left _ hr')
  count := by
    have hcount := h.count
    rw [Request.totalOutputCount_snoc] at hcount
    omega

theorem RunFits.last {requests : List Request} {r : Request} (h : RunFits (requests ++ [r])) :
    r.Fits :=
  h.each r (List.mem_append_right _ List.mem_cons_self)

/-! ## Coinbases fit -/

theorem Bytes.length_ofText_le (text : String) : (Bytes.ofText text).length ≤ 4 * text.length := by
  rw [ofText_eq, ← String.length_toList]
  induction text.toList with
  | nil => simp
  | cons c rest ih =>
      have hfour := c.utf8Size_le_four
      rw [List.flatMap_cons, List.length_append, String.length_utf8EncodeChar, List.length_cons]
      omega

theorem Hex.length_encode (bytes : Bytes) : (encode bytes).length = 2 * bytes.length := by
  rw [encode, String.length_ofList]
  induction bytes with
  | nil => rfl
  | cons b rest ih =>
      rw [List.flatMap_cons, List.length_append, ih, List.length_cons]
      show 2 + _ = _
      omega

theorem Ledger.length_digits_le (height : UInt64) : (toString height.toNat).length ≤ 20 := by
  rw [Nat.toString_eq_repr]
  exact (Nat.length_repr_le_iff (by omega)).mpr (Nat.lt_trans height.toNat_lt (by decide))

theorem Ledger.length_rewardNote_le (miner : Bytes) (height : UInt64) :
    (rewardNote miner height).length ≤ 8 * miner.length + 164 := by
  have hdigits := length_digits_le height
  have hfront : "Reward to ".length = 10 := by decide
  have hmiddle : " at height ".length = 11 := by decide
  refine Nat.le_trans (Bytes.length_ofText_le _) ?_
  rw [String.length_append, String.length_append, String.length_append, Hex.length_encode,
    hfront, hmiddle]
  omega

theorem Ledger.length_genesisNote_lt : genesisNote.length < 2 ^ 64 := by
  have hlength : "First Transaction from Genesis".length = 30 := by decide
  have hle := Bytes.length_ofText_le "First Transaction from Genesis"
  rw [genesisNote]
  omega

theorem Transaction.fits_coinbase {lock note : Bytes} (hlock : lock.length < 2 ^ 64)
    (hnote : note.length < 2 ^ 64) (reward : UInt64) : (coinbase lock note reward).Fits where
  inputs_length := by simp [coinbase, ofParts, withContentId]
  inputs i hi := by
    obtain rfl : i = Input.coinbase note := by simpa [coinbase, ofParts, withContentId] using hi
    exact ⟨by simp [Input.coinbase, Input.unsigned], hnote⟩
  outputs_length := by simp [coinbase, ofParts, withContentId]
  outputs o ho := by
    obtain rfl : o = ⟨reward, lock⟩ := by simpa [coinbase, ofParts, withContentId] using ho
    exact hlock

/-- A block with which a ledger begins a chain, its reward under a lock. -/
structure Rules.Begins (r : Rules) (lock : Bytes) (b : Block) : Prop where
  isGenesis : b.isGenesis = true
  transactions : b.transactions = [Transaction.coinbase lock Ledger.genesisNote r.reward]
  height : b.height = 0
  isSealed : r.difficulty.isSealed b = true

theorem Rules.Begins.fits {r : Rules} {lock : Bytes} {b : Block} (h : r.Begins lock b)
    (hlock : lock.length < 2 ^ 64) : b.Fits := by
  refine ⟨by simp [h.transactions], fun tx htx => ?_⟩
  rw [h.transactions, List.mem_singleton] at htx
  rw [htx]
  exact Transaction.fits_coinbase hlock Ledger.length_genesisNote_lt _

theorem Rules.sealGenesis_ends (r : Rules) (timestamp : Int64) (lock : Bytes) :
    Ends (r.difficulty.sealGenesis timestamp
      (Transaction.coinbase lock Ledger.genesisNote r.reward)) (r.Begins lock) := by
  refine (r.difficulty.sealBlock_ends timestamp _ Digest.zero 0 .never).mono ?_
  rintro b ⟨htxs, hparent, hheight, hsealed⟩
  refine ⟨?_, htxs, hheight, hsealed⟩
  rw [Block.isGenesis, hparent]
  rfl

/-! ## What an operation does to the contents -/

/-- The steps that the contents of a store can take. -/
inductive Contents.Step (c : Contents) : Contents → Prop
  | keep : Step c c
  | place {b : Block} {flag : Bool} {c' : Contents} :
      c.Attaches b → c.Places b flag c' → Step c c'
  | begin {b : Block} {lock note : Bytes} {reward : UInt64} : c = empty → b.isGenesis = true →
      b.transactions = [Transaction.coinbase lock note reward] →
      Step c (((c.withBlock b).withTip b.hash).withIndex (Index.ofChain [b]))
  | reindex {bs : List Block} : c.Active bs → Step c (c.withIndex (Index.ofChain bs))

/-- A block that has been stored stays. -/
theorem Contents.Step.blocks_subset {c c' : Contents} (h : c.Step c') :
    ∀ hash b, c.blocks hash = some b → c'.blocks hash = some b := by
  intro hash b hb
  cases h with
  | keep => exact hb
  | place _ hplace =>
      cases hplace with
      | beside hnew _ _ => exact blocks_subset_withBlock hnew hash b hb
      | onTip hnew _ _ _ => exact blocks_subset_withBlock hnew hash b hb
      | switch hnew _ _ _ => exact blocks_subset_withBlock hnew hash b hb
  | begin hempty _ _ =>
      rw [hempty] at hb
      cases hb
  | reindex _ => exact hb

namespace Ledger

variable {α : Type} {l : Ledger} {c c' : Contents} {room : Nat}

/-- An operation leads from a ledger, whose store holds some contents, to a sound
ledger, and what an error of it says. -/
structure Leads (l : Ledger) (c : Contents) (room : Nat) (result : Result α × Ledger)
    (c' : Contents) : Prop where
  holds : result.2.store.Holds c'
  running : result.2.halted = false
  rules : result.2.rules = l.rules
  step : c.Step c'
  sound : c'.Sound room
  /-- No error halts the ledger. -/
  harmless : ∀ e, result.1 = .error e → e.isFatal = false
  /-- An error means that nothing was written, unless a mined block met a rival. -/
  unchanged : ∀ e, result.1 = .error e → (∀ hash, e ≠ .superseded hash) →
    result.2.store = l.store

/-- An operation that leaves the ledger as it was. -/
theorem leads_keep {result : Result α} (h : l.store.Holds c) (hrun : l.halted = false)
    (hsound : c.Sound room) (hharmless : ∀ e, result = .error e → e.isFatal = false) :
    Leads l c room (result, l) c where
  holds := h
  running := hrun
  rules := rfl
  step := .keep
  sound := hsound
  harmless := hharmless
  unchanged _ _ _ := rfl

theorem leads_refuse {e : LedgerError} (h : l.store.Holds c) (hrun : l.halted = false)
    (hsound : c.Sound room) (he : e.isFatal = false) : Leads (α := α) l c room (.error e, l) c :=
  leads_keep h hrun hsound fun _ heq => Except.error.inj heq ▸ he

/-- An operation that stores a block. -/
theorem leads_place {b : Block} {value : α} {t : Store} {flag : Bool} (hrun : l.halted = false)
    (hsound : c.Sound room) (hholds : t.Holds c') (hattach : c.Attaches b)
    (hplace : c.Places b flag c') :
    Leads l c (room + outputCount b.transactions) (.ok value, { l with store := t }) c' where
  holds := hholds
  running := hrun
  rules := rfl
  step := .place hattach hplace
  sound := hsound.places hattach hplace
  harmless _ heq := nomatch heq
  unchanged _ heq := nomatch heq

theorem commitBlock_leads (h : l.store.Holds c) (hrun : l.halted = false) (hsound : c.Sound room)
    {b : Block} (hb : b.Fits) (hattach : c.Attaches b)
    (hroom : room + outputCount b.transactions < 2 ^ 64) :
    ∃ c', Leads l c (room + outputCount b.transactions) (l.commitBlock b) c' := by
  have hmore := hsound.mono (Nat.le_add_right room (outputCount b.transactions))
  rcases commitBlock_cases h hrun hsound hb hattach hroom with
    ⟨id, herror⟩ | ⟨_, hkeep⟩ | ⟨flag, t, c', ht, hholds, hplace⟩
  · rw [herror]
    exact ⟨c, leads_refuse h hrun hmore rfl⟩
  · rw [hkeep]
    exact ⟨c, leads_keep h hrun hmore fun _ heq => nomatch heq⟩
  · rw [ht]
    exact ⟨c', leads_place hrun hsound hholds hattach hplace⟩

/-- A block from elsewhere is refused, and nothing changes, or it passes the checks
and is committed. -/
theorem acceptBlock_cases (h : l.store.Holds c) (hrun : l.halted = false) (hsound : c.Sound room)
    {bs : List Block} (ha : c.Active bs) {b : Block} (hb : b.Fits)
    (hroom : room + outputCount b.transactions < 2 ^ 64) :
    (∃ e, e.isFatal = false ∧ l.acceptBlock b = (.error e, l)) ∨
    (c.Attaches b ∧ l.rules.Admits b ∧
      (∀ tx ∈ b.transactions, tx.isCoinbase = false → l.Signed bs tx) ∧
      (((c.blocks b.hash).isSome ∧ l.acceptBlock b = (.ok false, l)) ∨
        ∃ flag t c', l.acceptBlock b = (.ok flag, { l with store := t }) ∧ t.Holds c' ∧
          c.Places b flag c')) := by
  unfold acceptBlock
  rcases (checkBlock_ends h hsound.linked ha b).cases with
    ⟨e, herror, he⟩ | ⟨_, hok, hattach, hrules, hsigned⟩
  · rw [herror]
    exact Or.inl ⟨e, he, rfl⟩
  · rw [hok]
    rcases commitBlock_cases h hrun hsound hb hattach hroom with ⟨id, herror⟩ | hkeep | hplace
    · exact Or.inl ⟨_, rfl, herror⟩
    · exact Or.inr ⟨hattach, hrules, hsigned, Or.inl hkeep⟩
    · exact Or.inr ⟨hattach, hrules, hsigned, Or.inr hplace⟩

theorem acceptBlock_leads (h : l.store.Holds c) (hrun : l.halted = false) (hsound : c.Sound room)
    {b : Block} (hb : b.Fits) (hroom : room + outputCount b.transactions < 2 ^ 64) :
    ∃ c', Leads l c (room + outputCount b.transactions) (l.acceptBlock b) c' := by
  obtain ⟨bs, ha⟩ := hsound.exists_active
  have hmore := hsound.mono (Nat.le_add_right room (outputCount b.transactions))
  rcases acceptBlock_cases h hrun hsound ha hb hroom with
    ⟨e, he, herror⟩ | ⟨hattach, _, _, ⟨_, hkeep⟩ | ⟨flag, t, c', ht, hholds, hplace⟩⟩
  · rw [herror]
    exact ⟨c, leads_refuse h hrun hmore he⟩
  · rw [hkeep]
    exact ⟨c, leads_keep h hrun hmore fun _ heq => nomatch heq⟩
  · rw [ht]
    exact ⟨c', leads_place hrun hsound hholds hattach hplace⟩

theorem commitMined_leads (h : l.store.Holds c) (hrun : l.halted = false) (hsound : c.Sound room)
    {b : Block} (hb : b.Fits) (hattach : c.Attaches b)
    (hroom : room + outputCount b.transactions < 2 ^ 64) :
    ∃ c', Leads l c (room + outputCount b.transactions) (l.commitMined b) c' := by
  obtain ⟨c', hleads⟩ := commitBlock_leads h hrun hsound hb hattach hroom
  refine ⟨c', ?_⟩
  unfold commitMined
  generalize l.commitBlock b = committed at hleads
  obtain ⟨outcome, t⟩ := committed
  match outcome with
  | .error e =>
      exact ⟨hleads.holds, hleads.running, hleads.rules, hleads.step, hleads.sound,
        fun f heq => hleads.harmless f (Except.error.inj heq ▸ rfl),
        fun f heq => hleads.unchanged f (Except.error.inj heq ▸ rfl)⟩
  | .ok false =>
      refine ⟨hleads.holds, hleads.running, hleads.rules, hleads.step, hleads.sound, ?_, ?_⟩
      · intro e heq
        obtain rfl := Except.error.inj heq
        rfl
      · intro e heq hnot
        exact absurd (Except.error.inj heq).symm (hnot b.hash)
  | .ok true =>
      exact ⟨hleads.holds, hleads.running, hleads.rules, hleads.step, hleads.sound,
        fun _ heq => (nomatch heq), fun _ heq => (nomatch heq)⟩

theorem mineCandidate_leads (h : l.store.Holds c) (hrun : l.halted = false) (hsound : c.Sound room)
    {k : Candidate} (hlength : k.transactions.length < 2 ^ 64)
    (hfits : ∀ tx ∈ k.transactions, tx.Fits) (hattach : k.Attaches c)
    (hroom : room + outputCount k.transactions < 2 ^ 64) (timestamp : Int64)
    (calledOff : Schedule) :
    ∃ c', Leads l c (room + outputCount k.transactions)
      (l.mineCandidate timestamp k calledOff) c' := by
  unfold mineCandidate sealCandidate
  rcases (l.rules.difficulty.sealBlock_ends timestamp k.transactions k.parent k.height
    calledOff).cases with ⟨e, herror, he⟩ | ⟨b, hok, htxs, hparent, hheight, _⟩
  · rw [herror]
    exact ⟨c, leads_refuse h hrun (hsound.mono (Nat.le_add_right _ _)) he⟩
  · rw [hok, ← htxs]
    rw [← htxs] at hlength hfits hroom
    obtain ⟨p, hp, hnext⟩ := hattach
    rw [← hparent] at hp
    rw [← hheight] at hnext
    exact commitMined_leads h hrun hsound ⟨hlength, hfits⟩ (fun _ => ⟨p, hp, hnext⟩) hroom

/-- Transactions that fit make a candidate that fits. -/
theorem fits_candidate {txs : List Transaction} {miner : Bytes} {k : Candidate}
    (hminer : miner.length < 2 ^ 60) (hlength : txs.length + 1 < 2 ^ 64)
    (hfits : ∀ tx ∈ txs, tx.Fits) (htxs : k.transactions =
      Transaction.coinbase miner (rewardNote miner k.height) l.rules.reward :: txs) :
    k.transactions.length < 2 ^ 64 ∧ (∀ tx ∈ k.transactions, tx.Fits) ∧
      outputCount k.transactions = outputCount txs + 1 := by
  have hnote := length_rewardNote_le miner k.height
  rw [htxs]
  refine ⟨hlength, ?_, ?_⟩
  · intro tx htx
    rcases List.mem_cons.mp htx with rfl | htx
    · exact Transaction.fits_coinbase (by omega) (by omega) _
    · exact hfits tx htx
  · rw [outputCount, List.map_cons, List.sum_cons, outputCount, Nat.add_comm]
    rfl

theorem mineBlock_leads (h : l.store.Holds c) (hrun : l.halted = false) (hsound : c.Sound room)
    {txs : List Transaction} {miner : Bytes} (hminer : miner.length < 2 ^ 60)
    (hlength : txs.length + 1 < 2 ^ 64) (hfits : ∀ tx ∈ txs, tx.Fits)
    (hroom : room + (outputCount txs + 1) < 2 ^ 64) (timestamp : Int64) (calledOff : Schedule) :
    ∃ c', Leads l c (room + (outputCount txs + 1))
      (l.mineBlock timestamp txs miner calledOff) c' := by
  obtain ⟨bs, ha⟩ := hsound.exists_active
  unfold mineBlock
  rcases (candidate_ends h hsound.linked ha txs miner).cases with
    ⟨e, herror, he⟩ | ⟨k, hok, hattach, _, htxs⟩
  · rw [herror]
    exact ⟨c, leads_refuse h hrun (hsound.mono (Nat.le_add_right _ _)) he⟩
  · obtain ⟨hklength, hkfits, hcount⟩ := fits_candidate hminer hlength hfits htxs
    rw [hok, ← hcount]
    exact mineCandidate_leads h hrun hsound hklength hkfits hattach (hcount ▸ hroom) timestamp
      calledOff

/-- The block that begins a chain is sealed only for a store without one. -/
theorem sealGenesis_ends (h : l.store.Holds c) (hrun : l.halted = false) (timestamp : Int64)
    (lock : Bytes) :
    Ends (l.sealGenesis timestamp lock) fun b => c.tip = none ∧ l.rules.Begins lock b := by
  have hwritable : Ends l.ensureWritable fun _ => True := by
    rw [ensureWritable_eq h hrun]
    exact ends_ok trivial
  have htip : Ends (Chain.tip? l.store) fun tip => tip = c.tip := by
    rw [Chain.tip?_eq h]
    exact ends_ok rfl
  unfold sealGenesis
  refine hwritable.bind fun _ _ => htip.bind fun tip htip => ?_
  dsimp only
  split
  · exact ends_error rfl
  · rename_i hnone
    refine (l.rules.sealGenesis_ends timestamp lock).mono fun b hb => ⟨?_, hb⟩
    rw [← htip]
    simpa using hnone

/-- A chain is begun in an empty store only, with the index of its one block. -/
theorem createGenesis_cases (h : l.store.Holds c) (hrun : l.halted = false) (hsound : c.Sound room)
    {lock : Bytes} (hlock : lock.length < 2 ^ 64) (timestamp : Int64) :
    (∃ e, e.isFatal = false ∧ l.createGenesis timestamp lock = (.error e, l)) ∨
    ∃ b t, c = Contents.empty ∧ l.rules.Begins lock b ∧
      l.createGenesis timestamp lock = (.ok b, { l with store := t }) ∧
      t.Holds (((c.withBlock b).withTip b.hash).withIndex (Index.ofChain [b])) := by
  unfold createGenesis
  rcases (sealGenesis_ends h hrun timestamp lock).cases with
    ⟨e, herror, he⟩ | ⟨b, hok, htip, hbegins⟩
  · rw [herror]
    exact Or.inl ⟨e, he, rfl⟩
  right
  -- a store without a tip is empty, so the block is new and nothing stands above it
  have hempty := hsound.bare htip
  have htxs := hbegins.transactions
  have hgenesis := hbegins.isGenesis
  have hnew : c.blocks b.hash = none := by rw [hempty]; rfl
  have hattach : c.Attaches b := fun hnot => by rw [hgenesis] at hnot; cases hnot
  have hfits := hbegins.fits hlock
  have hover : c.OvertakenBy b := by
    intro hash t hc
    rw [htip] at hc
    cases hc
  rw [hok]
  rcases Chain.addBlock_cases h hsound.hasTip hfits with
    ⟨hknown, _⟩ | ⟨_, hnot, _⟩ | ⟨_, _, t, ht, hholds⟩
  · rw [hnew] at hknown
    cases hknown
  · exact absurd hover hnot
  · have hlinked := hsound.linked.withBlock hnew hattach
    have hcount : Block.chainOutputCount [b] = 1 := by
      rw [Block.chainOutputCount, List.map_singleton, htxs]
      rfl
    obtain ⟨n, u, hu, hrebuilt⟩ := Unspent.rebuild_eq hholds ⟨hlinked.named, hlinked.parent⟩
      (Contents.active_of_genesis c hgenesis) (by omega)
    refine ⟨b, u, hempty, hbegins, ?_, hrebuilt⟩
    have hplace : placeGenesis l.store b = (.ok b, u) := by
      rw [placeGenesis, ht]
      simp only [hu]
    simp only [hplace]
    rfl

theorem createGenesis_leads (h : l.store.Holds c) (hrun : l.halted = false) (hsound : c.Sound room)
    {lock : Bytes} (hlock : lock.length < 2 ^ 64) (timestamp : Int64) :
    ∃ c', Leads l c (room + 1) (l.createGenesis timestamp lock) c' := by
  rcases createGenesis_cases h hrun hsound hlock timestamp with
    ⟨e, he, herror⟩ | ⟨b, t, hempty, hbegins, hok, hholds⟩
  · rw [herror]
    exact ⟨c, leads_refuse h hrun (hsound.mono (Nat.le_add_right room 1)) he⟩
  · have hput := hsound.putOnTip (b := b) (by rw [hempty]; rfl)
      (fun hnot => by rw [hbegins.isGenesis] at hnot; cases hnot) (Index.ofChain [b])
    have hcount : outputCount b.transactions = 1 := by rw [hbegins.transactions]; rfl
    rw [hcount] at hput
    rw [hok]
    exact ⟨_, hholds, hrun, rfl, .begin hempty hbegins.isGenesis hbegins.transactions, hput,
      fun _ heq => (nomatch heq), fun _ heq => (nomatch heq)⟩

theorem reindex_eq (h : l.store.Holds c) (hsound : c.Sound room) (hroom : room < 2 ^ 64)
    {bs : List Block} (ha : c.Active bs) :
    ∃ n t, l.reindex = (.ok n, { l with store := t, halted := false }) ∧
      t.Holds (c.withIndex (Index.ofChain bs)) := by
  have hcount := hsound.active_count ha
  obtain ⟨n, t, ht, hholds⟩ := Unspent.rebuild_eq h hsound.linked ha (by omega)
  refine ⟨n, t, ?_, hholds⟩
  rw [reindex, ht]
  simp only [hholds.clearHalted]

theorem reindex_leads (h : l.store.Holds c) (hsound : c.Sound room) (hroom : room < 2 ^ 64) :
    ∃ c', Leads l c room l.reindex c' := by
  obtain ⟨bs, ha⟩ := hsound.exists_active
  obtain ⟨n, t, hok, hholds⟩ := reindex_eq h hsound hroom ha
  rw [hok]
  exact ⟨_, hholds, rfl, rfl, .reindex ha, hsound.withIndex ha, fun _ heq => (nomatch heq),
    fun _ heq => (nomatch heq)⟩

end Ledger

/-! ## What a request does -/

namespace Session

variable {σ : Session} {c : Contents} {room : Nat}

/-- A session whose store holds sound contents, whose ledger has not halted, and
whose candidates are on top of stored blocks. -/
structure Sound (σ : Session) (c : Contents) (room : Nat) : Prop where
  holds : σ.ledger.store.Holds c
  running : σ.ledger.halted = false
  contents : c.Sound room
  attached : ∀ k ∈ σ.candidates, k.Attaches c

theorem sound_start (rules : Rules) : (start rules).Sound Contents.empty 0 where
  holds := Store.holds_empty
  running := rfl
  contents := Contents.sound_empty
  attached k hk := by cases hk

/-- What a request leads to, and what the answer to it says. A payment writes nothing
and is not asked for its errors. -/
structure Performs (σ : Session) (c : Contents) (room : Nat) (r : Request)
    (result : Result Unit × Session) (c' : Contents) : Prop where
  sound : result.2.Sound c' room
  rules : result.2.ledger.rules = σ.ledger.rules
  step : c.Step c'
  harmless : ¬ r.IsPayment → ∀ e, result.1 = .error e → e.isFatal = false
  unchanged : ∀ e, result.1 = .error e → (∀ hash, e ≠ .superseded hash) →
    result.2.ledger.store = σ.ledger.store

theorem Sound.mono {more : Nat} (h : σ.Sound c room) (hle : room ≤ more) : σ.Sound c more :=
  ⟨h.holds, h.running, h.contents.mono hle, h.attached⟩

theorem discard_eq_error {α : Type} {r : Result α} {e : LedgerError}
    (h : (discard r : Result Unit) = .error e) : r = .error e := by
  cases r with
  | ok a => cases h
  | error f => exact congrArg Except.error (Except.error.inj h)

/-- A request that an operation of the ledger answers. -/
theorem Sound.leads {α : Type} (h : σ.Sound c room) (r : Request) {result : Result α × Ledger}
    {more : Nat} {c' : Contents} (hleads : Ledger.Leads σ.ledger c more result c') :
    σ.Performs c more r (σ.adopt result) c' where
  sound :=
    ⟨hleads.holds, hleads.running, hleads.sound, fun k hk =>
      let ⟨p, hp, hheight⟩ := h.attached k hk
      ⟨p, hleads.step.blocks_subset _ _ hp, hheight⟩⟩
  rules := hleads.rules
  step := hleads.step
  harmless _ e he := hleads.harmless e (discard_eq_error he)
  unchanged e he := hleads.unchanged e (discard_eq_error he)

theorem Sound.propose (h : σ.Sound c room) (txs : List Transaction) (miner : Bytes) :
    σ.Performs c room (.propose txs miner) (σ.perform (.propose txs miner)) c := by
  obtain ⟨bs, ha⟩ := h.contents.exists_active
  show σ.Performs c room _ (σ.keepJob (σ.ledger.startMining txs miner)) c
  rw [Ledger.startMining]
  rcases (Ledger.candidate_ends h.holds h.contents.linked ha txs miner).cases with
    ⟨e, herror, he⟩ | ⟨k, hok, hattach, _⟩
  · rw [herror]
    exact ⟨h, rfl, .keep, fun _ f heq => Except.error.inj heq ▸ he, fun _ _ _ => rfl⟩
  · rw [hok]
    refine ⟨⟨h.holds, h.running, h.contents, fun k' hk' => ?_⟩, rfl, .keep,
      fun _ _ heq => (nomatch heq), fun _ _ _ => rfl⟩
    rcases List.mem_cons.mp hk' with rfl | hk'
    · exact hattach
    · exact h.attached k' hk'

theorem Sound.perform (h : σ.Sound c room) {r : Request} (hr : r.Fits)
    (hroom : room + r.outputCount < 2 ^ 64) :
    ∃ c', σ.Performs c (room + r.outputCount) r (σ.perform r) c' := by
  cases r with
  | genesis timestamp lock =>
      obtain ⟨c', hleads⟩ := Ledger.createGenesis_leads h.holds h.running h.contents hr timestamp
      exact ⟨c', h.leads _ hleads⟩
  | accept b =>
      obtain ⟨c', hleads⟩ := Ledger.acceptBlock_leads h.holds h.running h.contents hr hroom
      exact ⟨c', h.leads _ hleads⟩
  | propose txs miner => exact ⟨c, h.propose txs miner⟩
  | finish timestamp k calledOff =>
      show ∃ c', σ.Performs c _ _ (if k ∈ σ.candidates then _ else _) c'
      by_cases hk : k ∈ σ.candidates
      · rw [if_pos hk]
        obtain ⟨c', hleads⟩ := Ledger.mineCandidate_leads h.holds h.running h.contents hr.1 hr.2
          (h.attached k hk) hroom timestamp calledOff
        exact ⟨c', h.leads _ hleads⟩
      · rw [if_neg hk]
        exact ⟨c, h.mono (Nat.le_add_right _ _), rfl, .keep,
          fun _ e heq => Except.error.inj heq ▸ rfl, fun _ _ _ => rfl⟩
  | mine timestamp txs miner calledOff =>
      obtain ⟨hminer, hlength, hfits⟩ := hr
      obtain ⟨c', hleads⟩ := Ledger.mineBlock_leads h.holds h.running h.contents hminer hlength
        hfits hroom timestamp calledOff
      exact ⟨c', h.leads _ hleads⟩
  | pay sender recipient amount =>
      exact ⟨c, h, rfl, .keep, fun hnot => absurd trivial hnot, fun _ _ _ => rfl⟩
  | reindex =>
      obtain ⟨c', hleads⟩ := Ledger.reindex_leads h.holds h.contents hroom
      exact ⟨c', h.leads _ hleads⟩

/-! ## Runs -/

/-- A member of a list with one more at the end is the last one, or comes before it. -/
theorem split_snoc {α : Type} {members before after : List α} {a last : α}
    (h : members ++ [last] = before ++ a :: after) :
    (before = members ∧ a = last) ∨ ∃ rest, members = before ++ a :: rest := by
  rcases List.eq_nil_or_concat after with rfl | ⟨rest, t, rfl⟩
  · left
    obtain ⟨rfl, rfl⟩ := List.append_singleton_inj.mp h
    exact ⟨rfl, rfl⟩
  · right
    rw [List.concat_eq_append, ← List.cons_append, ← List.append_assoc] at h
    exact ⟨rest, (List.append_singleton_inj.mp h).1⟩

theorem run_append (σ : Session) (before after : List Request) :
    σ.run (before ++ after) = (σ.run before).run after :=
  List.foldl_append

theorem run_snoc (σ : Session) (requests : List Request) (r : Request) :
    σ.run (requests ++ [r]) = ((σ.run requests).perform r).2 :=
  run_append σ requests [r]

/-- One more request after a run. -/
theorem Sound.run_snoc {rules : Rules} {requests : List Request} {r : Request} {c : Contents}
    (h : ((start rules).run requests).Sound c (Request.totalOutputCount requests))
    (hfits : RunFits (requests ++ [r])) :
    ∃ c', ((start rules).run (requests ++ [r])).Sound c'
      (Request.totalOutputCount (requests ++ [r])) ∧ c.Step c' := by
  have hcount := hfits.count
  rw [Request.totalOutputCount_snoc] at hcount ⊢
  obtain ⟨c', hperforms⟩ := h.perform hfits.last hcount
  rw [Session.run_snoc]
  exact ⟨c', hperforms.sound, hperforms.step⟩

/-- Every run that fits leads from an empty store to a sound session. -/
theorem run_sound (rules : Rules) {requests : List Request} (hfits : RunFits requests) :
    ∃ c, ((start rules).run requests).Sound c (Request.totalOutputCount requests) := by
  induction requests using List.reverseRecOn with
  | nil => exact ⟨Contents.empty, sound_start rules⟩
  | append_singleton requests r ih =>
      obtain ⟨c, h⟩ := ih hfits.init
      obtain ⟨c', hsound, _⟩ := h.run_snoc hfits
      exact ⟨c', hsound⟩

end Session

/-! ## A fork

A root and two branches on it, under the rules that are quickest to obey. The shorter
branch has one block. Both blocks of the longer one hold the payment that spends the
reward of the root.
-/

namespace Fork

def rules : Rules := ⟨⟨1, by decide, by decide⟩, 100, Secp256k1.scheme⟩

def alice : Bytes := Bytes.bigEndian 20 0x4dc74d361ff245706ca27106e0e28e8ef3da2dbd

def bob : Bytes := Bytes.bigEndian 20 0xd490cc59944c332c6c8619ed437ef8eff4e4be85

/-- A coinbase under an id. -/
def coinbase (id : Nat) (note : UInt8) (lock : Bytes) : Transaction :=
  ⟨Digest.ofNat id, [Input.coinbase [note]], [⟨100, lock⟩]⟩

/-- The reward of the root. -/
def reward : Transaction :=
  coinbase 0x38677dc03e79eae9d9968bee0d64b2244c0f30eee893016fa5146da63ef77c91 0 alice

/-- The claim to the reward, with Alice's key and signature. -/
def spend : Input where
  source := reward.id
  index := 0
  signature :=
    Bytes.bigEndian 32 0xf3d89a7914e00e841d578689aee6ada890537eec4a691d3eed52310ce74f141d ++
      Bytes.bigEndian 32 0x34ba7f59a00268dffbd7478332157343d19eb3ba317c93be520b11eab1ec6bb7
  key :=
    Bytes.bigEndian 32 0x4f355bdcb7cc0af728ef3cceb9615d90684bb5b2ca5f859ab0f0b704075871aa ++
      Bytes.bigEndian 32 0x385b6b1b8ead809ca67454d9683fcf2ba03456d6fe2c4abe2b07f0fbdbb2f1c1

def payment : Transaction :=
  ⟨Digest.ofNat 0xe3e4928fadb458db66f4e3b18dd6330ef072b18647305fb9e2c047b3eeb3c566, [spend],
    [⟨100, bob⟩]⟩

def root : Block where
  timestamp := 0
  hash := Digest.ofNat 0x6b6546333ee8971f8868ebbaa07ebc3c98f2b2c9e7735dcabc97087538c6c4bc
  transactions := [reward]
  parent := Digest.zero
  nonce := 0
  height := 0

def shorter : Block where
  timestamp := 0
  hash := Digest.ofNat 0x7f765e7acb109eccb562af3d225e98e8c36508143e835b7dd5e064ccd34bfb5d
  transactions :=
    [coinbase 0xaac89103622dfac30cfa027da946ecef08f0ed2e143aa1c62fd43f979524b6dd 1 bob]
  parent := root.hash
  nonce := 3
  height := 1

def longer : Block where
  timestamp := 0
  hash := Digest.ofNat 0x04bd830db58316b755aea14dcad565d86b7805adc5bbdff40d11b5887abcecd7
  transactions :=
    [coinbase 0x9cb33103babf779436610d68e6cfe09c8cc679b43242de60ffdb991fd5e2391e 2 bob, payment]
  parent := root.hash
  nonce := 0
  height := 1

/-- The second block of the longer branch. -/
def longest : Block where
  timestamp := 0
  hash := Digest.ofNat 0x304074f16e97e7d9e88533d0865e8e596956a289b196cf89c3eb3dd3324d9a56
  transactions :=
    [coinbase 0xa7456f5dacc071b12e29dea8c9c9d64b8732edc037bcb319762374a7b4952be6 3 bob, payment]
  parent := longer.hash
  nonce := 0
  height := 2

end Fork

end CoinLedger
