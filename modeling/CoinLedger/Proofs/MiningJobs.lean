import CoinLedger.Proofs.ChainStructure

/-!
# Mining jobs

A mining job takes three steps: a candidate is put together on top of the tip, the search
seals it, and the sealed block is committed. A `Workshop` is a ledger with its jobs; the
steps of all jobs and blocks from elsewhere come in any order.

`Chain.Truthful` says what the report of a job promises of the store at the moment the
commit ends. The report is read off one flag, which says whether the block has become the
tip, and a block that is known already does not become it: not when a rival has displaced
it, and not when another job has been given the same work and was committed first, for the
seal does not cover the time, so both have found the same hash. So the second of two such
jobs reports that its block was superseded while the block is at the tip.

`Workshop.report_truthful_iff` says that this is the only way in which a report can be
wrong: it is right exactly if the block was not on the active chain before the commit.
-/

namespace CoinLedger

/-! ## Reports -/

namespace Chain

/-- The active chain can be read, and none of its blocks has the hash. -/
def OffActive (s : Store) (hash : Digest) : Prop :=
  ∃ active, hashes s = .ok active ∧ hash ∉ active

/-- What the report of a mining job says of the store. A block that was mined is at the
tip; one that was superseded is stored and not on the active chain. -/
def Truthful (s : Store) : Result Block → Prop
  | .ok b => tip? s = .ok (some b.hash) ∧ block s b.hash = .ok b
  | .error (.superseded hash) => hasBlock s hash = true ∧ OffActive s hash
  | .error _ => True

variable {s : Store} {c : Contents} {bs : List Block} {hash : Digest}

/-- An error that says nothing about a block is no report on one. -/
theorem truthful_error {e : LedgerError} (h : ∀ hash, e ≠ .superseded hash) :
    Truthful s (.error e) := by
  unfold Truthful
  split
  · rename_i heq
    cases heq
  · rename_i hash heq
    exact absurd (Except.error.inj heq) (h hash)
  · trivial

theorem hashes_eq (h : s.Holds c) (hl : c.Linked) (ha : c.Active bs) :
    hashes s = .ok (bs.map Block.hash) := by
  rw [hashes, blocks_eq h hl ha]
  rfl

theorem offActive_iff (h : s.Holds c) (hl : c.Linked) (ha : c.Active bs) :
    OffActive s hash ↔ hash ∉ bs.map Block.hash := by
  rw [OffActive, hashes_eq h hl ha]
  constructor
  · rintro ⟨active, heq, hnot⟩
    rwa [← Except.ok.inj heq] at hnot
  · exact fun hnot => ⟨_, rfl, hnot⟩

/-- All blocks of the active chain are stored. -/
theorem notMem_hashes_of_new (hl : c.Linked) (ha : c.Active bs) (hnew : c.blocks hash = none) :
    hash ∉ bs.map Block.hash := by
  intro hmem
  obtain ⟨b, hb, rfl⟩ := List.mem_map.mp hmem
  obtain ⟨name, hname⟩ := ha.stored b hb
  obtain rfl := hl.named name b hname
  cases hnew.symm.trans hname

end Chain

namespace Ledger

open Chain (OffActive Truthful)

variable {l : Ledger} {c : Contents} {b : Block} {room : Nat}

/-- No search ends with the word that a block was superseded. -/
theorem sealCandidate_ne_superseded {k : Candidate} {timestamp : Int64} {calledOff : Schedule}
    {e : LedgerError} (h : l.sealCandidate timestamp k calledOff = .error e) (hash : Digest) :
    e ≠ .superseded hash := by
  unfold sealCandidate Difficulty.sealBlock at h
  split at h
  · cases h
    nofun
  · dsimp only at h
    split at h
    · cases h
      nofun
    · cases h

theorem commitBlock_of_known (h : l.store.Holds c) (hrun : l.halted = false)
    (hknown : (c.blocks b.hash).isSome) : l.commitBlock b = (.ok false, l) := by
  obtain ⟨onTip, hextends, _⟩ := extendsTip_eq h b
  have hhas : Chain.hasBlock l.store b.hash = true := by rw [Chain.hasBlock_eq h, hknown]
  have hstore : storeBlock l.store b onTip = .ok (false, l.store) := by
    rw [storeBlock, hhas, Bool.not_true, Bool.and_false, Chain.addBlock_of_known hhas]
    rfl
  rw [commitBlock, ensureWritable_eq h hrun, placeBlock_of_beside hextends hstore]
  rfl

/-- The report on a block that was stored before the commit. -/
theorem commitMined_of_known (h : l.store.Holds c) (hrun : l.halted = false)
    (hknown : (c.blocks b.hash).isSome) : l.commitMined b = (.error (.superseded b.hash), l) := by
  rw [commitMined, commitBlock_of_known h hrun hknown]

/-- The report on a new block is right, whatever it is. -/
theorem commitMined_of_new (h : l.store.Holds c) (hrun : l.halted = false) (hsound : c.Sound room)
    (hb : b.Fits) (hattach : c.Attaches b) (hroom : room + outputCount b.transactions < 2 ^ 64)
    (hnew : c.blocks b.hash = none) :
    Truthful (l.commitMined b).2.store (l.commitMined b).1 := by
  rcases commitBlock_cases h hrun hsound hb hattach hroom with
    ⟨id, herror⟩ | ⟨hknown, _⟩ | ⟨flag, t, c', ht, hholds, hplace⟩
  · rw [commitMined, herror]
    trivial
  · rw [hnew] at hknown
    cases hknown
  have hlinked := (hsound.places hattach hplace).linked
  rw [commitMined, ht]
  cases hplace with
  | beside _ hnot hfollow =>
      -- the tip has stayed, so the active chain is that of before, without the new block
      obtain ⟨bs, ha⟩ := hsound.exists_active
      refine ⟨?_, (Chain.offActive_iff hholds hlinked (ha.withBlock hnew)).mpr ?_⟩
      · rw [Chain.hasBlock_eq hholds, Contents.blocks_withBlock_self]
        rfl
      · exact Chain.notMem_hashes_of_new hsound.linked ha hnew
  | onTip _ _ _ _ =>
      exact ⟨Chain.tip?_eq hholds, Chain.block_of_some hholds (Contents.blocks_withBlock_self c b)⟩
  | switch _ _ _ _ =>
      exact ⟨Chain.tip?_eq hholds, Chain.block_of_some hholds (Contents.blocks_withBlock_self c b)⟩

/-- A report is right exactly if the block was not on the active chain before the commit.
On the active chain it is reported to be superseded. -/
theorem commitMined_truthful_iff (h : l.store.Holds c) (hrun : l.halted = false)
    (hsound : c.Sound room) (hb : b.Fits) (hattach : c.Attaches b)
    (hroom : room + outputCount b.transactions < 2 ^ 64) :
    (Truthful (l.commitMined b).2.store (l.commitMined b).1 ↔ OffActive l.store b.hash) ∧
      (¬ OffActive l.store b.hash → (l.commitMined b).1 = .error (.superseded b.hash)) := by
  cases hstored : c.blocks b.hash with
  | none =>
      obtain ⟨bs, ha⟩ := hsound.exists_active
      have hoff : OffActive l.store b.hash := (Chain.offActive_iff h hsound.linked ha).mpr
        (Chain.notMem_hashes_of_new hsound.linked ha hstored)
      have hright := commitMined_of_new h hrun hsound hb hattach hroom hstored
      exact ⟨iff_of_true hright hoff, fun hnot => absurd hoff hnot⟩
  | some t =>
      have hknown : (c.blocks b.hash).isSome := by rw [hstored]; rfl
      have hhas : Chain.hasBlock l.store b.hash = true := by rw [Chain.hasBlock_eq h, hknown]
      rw [commitMined_of_known h hrun hknown]
      exact ⟨and_iff_right hhas, fun _ => rfl⟩

end Ledger

/-! ## Jobs on one ledger -/

/-- How far a mining job has come. -/
inductive MiningStage
  | searching (k : Candidate)
  | found (b : Block)
  | ended (report : Result Block)
deriving DecidableEq

namespace MiningStage

/-- The job after its search. -/
def ofSearch : Result Block → MiningStage
  | .ok b => found b
  | .error e => ended (.error e)

/-- How many outputs the job may still bring. -/
def outputCount : MiningStage → Nat
  | searching k => CoinLedger.outputCount k.transactions
  | found b => CoinLedger.outputCount b.transactions
  | ended _ => 0

/-- What the job works on stands on a stored block, and its lengths can be written down. -/
def Ready (c : Contents) : MiningStage → Prop
  | searching k =>
    k.Attaches c ∧ k.transactions.length < 2 ^ 64 ∧ ∀ tx ∈ k.transactions, tx.Fits
  | found b => c.Attaches b ∧ b.Fits
  | ended _ => True

end MiningStage

/-- A ledger with the jobs that have been started on it, in the order of their start. -/
structure Workshop where
  ledger : Ledger
  jobs : List MiningStage

namespace Workshop

/-- A step of a job, or a block from elsewhere. -/
inductive Event
  | start (txs : List Transaction) (miner : Bytes)
  | search (job : Nat) (timestamp : Int64) (calledOff : Schedule)
  | commit (job : Nat)
  | accept (b : Block)

/-- A ledger on which no job has been started, after some requests. -/
def opened (rules : Rules) (requests : List Request) : Workshop :=
  ⟨((Session.start rules).run requests).ledger, []⟩

/-- Puts a candidate together; without one no job is started. -/
def startJob (w : Workshop) (txs : List Transaction) (miner : Bytes) : Workshop :=
  match w.ledger.candidate txs miner with
  | .ok k => { w with jobs := w.jobs ++ [.searching k] }
  | .error _ => w

/-- Seals the candidate of a job that has one, or ends the job without a block. -/
def searchJob (w : Workshop) (job : Nat) (timestamp : Int64) (calledOff : Schedule) : Workshop :=
  match w.jobs[job]? with
  | some (.searching k) =>
    { w with jobs := w.jobs.set job (.ofSearch (w.ledger.sealCandidate timestamp k calledOff)) }
  | _ => w

/-- Commits the block of a job that has found one. -/
def commitJob (w : Workshop) (job : Nat) : Workshop :=
  match w.jobs[job]? with
  | some (.found b) =>
    let (report, l) := w.ledger.commitMined b
    ⟨l, w.jobs.set job (.ended report)⟩
  | _ => w

def perform (w : Workshop) : Event → Workshop
  | .start txs miner => w.startJob txs miner
  | .search job timestamp calledOff => w.searchJob job timestamp calledOff
  | .commit job => w.commitJob job
  | .accept b => { w with ledger := (w.ledger.acceptBlock b).2 }

def run (w : Workshop) (events : List Event) : Workshop := events.foldl perform w

/-- The request that would write the block of an event at once. -/
def Event.request? : Event → Option Request
  | .start txs miner => some (.mine 0 txs miner .never)
  | .accept b => some (.accept b)
  | _ => none

/-- How many outputs an event brings, now or when the job that it starts is committed. -/
def Event.outputCount (e : Event) : Nat := e.request?.elim 0 Request.outputCount

/-- The requests and the blocks of the events fit together. -/
def RunsFit (requests : List Request) (events : List Event) : Prop :=
  RunFits (requests ++ events.filterMap Event.request?)

instance (requests : List Request) (events : List Event) : Decidable (RunsFit requests events) :=
  inferInstanceAs (Decidable (RunFits _))

/-- How many outputs the jobs may still bring. -/
def pending (w : Workshop) : Nat := (w.jobs.map MiningStage.outputCount).sum

/-- A running ledger on a sound store, with jobs that are ready for their next steps. The
outputs of all chains and those to come from jobs are within a bound. -/
structure Sound (w : Workshop) (c : Contents) (bound : Nat) : Prop where
  holds : w.ledger.store.Holds c
  running : w.ledger.halted = false
  ready : ∀ stage ∈ w.jobs, stage.Ready c
  contents : ∃ room, c.Sound room ∧ room + w.pending ≤ bound

variable {w : Workshop} {c : Contents} {bound : Nat} {job : Nat} {stage : MiningStage}

/-- What is to come when one job goes on. -/
theorem pending_set (h : w.jobs[job]? = some stage) (l : Ledger) (next : MiningStage) :
    pending ⟨l, w.jobs.set job next⟩ + stage.outputCount = w.pending + next.outputCount := by
  obtain ⟨hlt, rfl⟩ := List.getElem?_eq_some_iff.mp h
  have hlength : job < (w.jobs.map MiningStage.outputCount).length := by rwa [List.length_map]
  have hnext := List.sum_set (w.jobs.map MiningStage.outputCount) job next.outputCount
  have hsame := List.sum_set (w.jobs.map MiningStage.outputCount) job w.jobs[job].outputCount
  rw [if_pos hlength, ← List.map_set] at hnext hsame
  rw [List.set_getElem_self] at hsame
  rw [pending, pending, hnext, hsame]
  omega

theorem outputCount_le_pending (h : w.jobs[job]? = some stage) : stage.outputCount ≤ w.pending := by
  have hended : MiningStage.outputCount (.ended (.error .cancelled)) = 0 := rfl
  have hpending := pending_set h w.ledger (.ended (.error .cancelled))
  omega

/-- A job stays ready when blocks are stored. -/
theorem ready_of_step {c' : Contents} (h : stage.Ready c) (hstep : c.Step c') : stage.Ready c' := by
  cases stage with
  | searching k =>
      obtain ⟨⟨p, hp, hheight⟩, hfits⟩ := h
      exact ⟨⟨p, hstep.blocks_subset _ _ hp, hheight⟩, hfits⟩
  | found b =>
      obtain ⟨hattach, hfits⟩ := h
      refine ⟨fun hg => ?_, hfits⟩
      obtain ⟨p, hp, hheight⟩ := hattach hg
      exact ⟨p, hstep.blocks_subset _ _ hp, hheight⟩
  | ended _ => trivial

/-! ## What a step keeps -/

theorem sound_opened (rules : Rules) {requests : List Request} (hfits : RunFits requests) :
    ∃ c, (opened rules requests).Sound c (Request.totalOutputCount requests) := by
  obtain ⟨c, h⟩ := Session.run_sound rules hfits
  exact ⟨c, h.holds, h.running, fun stage hstage => (nomatch hstage),
    _, h.contents, Nat.le_refl _⟩

theorem Sound.mono {more : Nat} (h : w.Sound c bound) (hle : bound ≤ more) : w.Sound c more where
  holds := h.holds
  running := h.running
  ready := h.ready
  contents := by
    obtain ⟨room, hsound, hroom⟩ := h.contents
    exact ⟨room, hsound, Nat.le_trans hroom hle⟩

/-- One job goes on, and what it brings to the store it has no longer to bring. -/
theorem Sound.advance {l : Ledger} {c' : Contents} {room room' : Nat} (next : MiningStage)
    (hjob : w.jobs[job]? = some stage) (hready : ∀ stage ∈ w.jobs, stage.Ready c')
    (hnext : next.Ready c') (hholds : l.store.Holds c') (hrun : l.halted = false)
    (hsound : c'.Sound room') (hroom : room + w.pending ≤ bound)
    (hle : room' + next.outputCount ≤ room + stage.outputCount) :
    (Workshop.mk l (w.jobs.set job next)).Sound c' bound := by
  refine ⟨hholds, hrun, fun other hmem => ?_, room', hsound, ?_⟩
  · rcases List.mem_or_eq_of_mem_set hmem with hmem | rfl
    · exact hready other hmem
    · exact hnext
  · have hpending := pending_set hjob l next
    omega

theorem Sound.startJob (h : w.Sound c bound) {txs : List Transaction} {miner : Bytes}
    (hminer : miner.length < 2 ^ 60) (hlength : txs.length + 1 < 2 ^ 64)
    (hfits : ∀ tx ∈ txs, tx.Fits) :
    (w.startJob txs miner).Sound c (bound + (outputCount txs + 1)) := by
  obtain ⟨room, hsound, hroom⟩ := h.contents
  obtain ⟨bs, ha⟩ := hsound.exists_active
  unfold Workshop.startJob
  rcases (Ledger.candidate_ends h.holds hsound.linked ha txs miner).cases with
    ⟨e, herror, _⟩ | ⟨k, hok, hattach, _, htxs⟩
  · rw [herror]
    exact h.mono (Nat.le_add_right _ _)
  · obtain ⟨hklength, hkfits, hcount⟩ := Ledger.fits_candidate hminer hlength hfits htxs
    rw [hok]
    refine ⟨h.holds, h.running, fun stage hmem => ?_, room, hsound, ?_⟩
    · rcases List.mem_append.mp hmem with hmem | hmem
      · exact h.ready stage hmem
      · rw [List.mem_singleton.mp hmem]
        exact ⟨hattach, hklength, hkfits⟩
    · have hpending : pending ⟨w.ledger, w.jobs ++ [.searching k]⟩ =
          w.pending + (outputCount txs + 1) := by
        rw [pending, List.map_append, List.sum_append, ← hcount]
        rfl
      rw [hpending]
      omega

theorem Sound.searchJob (h : w.Sound c bound) (job : Nat) (timestamp : Int64)
    (calledOff : Schedule) : (w.searchJob job timestamp calledOff).Sound c bound := by
  unfold Workshop.searchJob
  split
  · rename_i k hjob
    obtain ⟨hattach, hlength, hfits⟩ := h.ready _ (List.mem_of_getElem? hjob)
    obtain ⟨room, hsound, hroom⟩ := h.contents
    cases hseal : w.ledger.sealCandidate timestamp k calledOff with
    | error e =>
        exact .advance (.ended (.error e)) hjob h.ready trivial h.holds h.running hsound hroom
          (Nat.add_le_add_left (Nat.zero_le _) room)
    | ok b =>
        have hb := Ledger.sealCandidate_eq_ok hseal
        have hready : MiningStage.Ready c (.found b) :=
          ⟨fun _ => hb.attaches hattach, hb.transactions ▸ hlength, hb.transactions ▸ hfits⟩
        refine .advance (.found b) hjob h.ready hready h.holds h.running hsound hroom ?_
        rw [MiningStage.outputCount, MiningStage.outputCount, hb.transactions]
  · exact h

theorem Sound.commitJob (h : w.Sound c bound) (hbound : bound < 2 ^ 64) (job : Nat) :
    ∃ c', (w.commitJob job).Sound c' bound := by
  unfold Workshop.commitJob
  split
  · rename_i b hjob
    obtain ⟨hattach, hfits⟩ := h.ready _ (List.mem_of_getElem? hjob)
    obtain ⟨room, hsound, hroom⟩ := h.contents
    have hle : outputCount b.transactions ≤ w.pending :=
      outputCount_le_pending hjob
    have hspace : room + outputCount b.transactions < 2 ^ 64 := by omega
    obtain ⟨c', hleads⟩ := Ledger.commitMined_leads h.holds h.running hsound hfits hattach hspace
    have hready : ∀ stage ∈ w.jobs, stage.Ready c' :=
      fun stage hstage => ready_of_step (h.ready stage hstage) hleads.step
    exact ⟨c', .advance (.ended (w.ledger.commitMined b).1) hjob hready trivial hleads.holds
      hleads.running hleads.sound hroom (Nat.le_refl _)⟩
  · exact ⟨c, h⟩

theorem Sound.accept (h : w.Sound c bound) {b : Block} (hb : b.Fits)
    (hbound : bound + outputCount b.transactions < 2 ^ 64) :
    ∃ c', (w.perform (.accept b)).Sound c' (bound + outputCount b.transactions) := by
  obtain ⟨room, hsound, hroom⟩ := h.contents
  obtain ⟨c', hleads⟩ := Ledger.acceptBlock_leads h.holds h.running hsound hb (by omega)
  refine ⟨c', hleads.holds, hleads.running,
    fun stage hstage => ready_of_step (h.ready stage hstage) hleads.step, _, hleads.sound, ?_⟩
  show room + outputCount b.transactions + w.pending ≤ _
  omega

theorem Sound.perform (h : w.Sound c bound) {e : Event} (hfits : ∀ r ∈ e.request?, r.Fits)
    (hbound : bound + e.outputCount < 2 ^ 64) :
    ∃ c', (w.perform e).Sound c' (bound + e.outputCount) := by
  cases e with
  | start txs miner =>
      obtain ⟨hminer, hlength, htxs⟩ := hfits _ rfl
      exact ⟨c, h.startJob hminer hlength htxs⟩
  | search job timestamp calledOff => exact ⟨c, h.searchJob job timestamp calledOff⟩
  | commit job => exact h.commitJob hbound job
  | accept b => exact h.accept (hfits _ rfl) hbound

/-! ## Runs -/

theorem run_snoc (w : Workshop) (events : List Event) (e : Event) :
    w.run (events ++ [e]) = (w.run events).perform e :=
  List.foldl_append

theorem requests_snoc (requests : List Request) (events : List Event) (e : Event) :
    requests ++ (events ++ [e]).filterMap Event.request? =
      requests ++ events.filterMap Event.request? ++ e.request?.toList := by
  rw [List.filterMap_append, List.append_assoc]
  cases hr : e.request? with
  | none => simp [hr]
  | some r => simp [hr]

theorem totalOutputCount_snoc (requests : List Request) (events : List Event) (e : Event) :
    Request.totalOutputCount (requests ++ (events ++ [e]).filterMap Event.request?) =
      Request.totalOutputCount (requests ++ events.filterMap Event.request?) + e.outputCount := by
  rw [requests_snoc, Event.outputCount]
  cases e.request? with
  | none => rw [Option.toList_none, List.append_nil, Option.elim_none, Nat.add_zero]
  | some r => exact Request.totalOutputCount_snoc _ r

theorem RunsFit.init {requests : List Request} {events : List Event} {e : Event}
    (h : RunsFit requests (events ++ [e])) : RunsFit requests events := by
  unfold RunsFit at h
  rw [requests_snoc] at h
  cases hr : e.request? with
  | none => rwa [hr, Option.toList_none, List.append_nil] at h
  | some r =>
      rw [hr, Option.toList_some] at h
      exact RunFits.init h

theorem RunsFit.last {requests : List Request} {events : List Event} {e : Event}
    (h : RunsFit requests (events ++ [e])) : ∀ r ∈ e.request?, r.Fits := by
  intro r hr
  unfold RunsFit at h
  rw [requests_snoc, hr, Option.toList_some] at h
  exact RunFits.last h

/-- Whatever steps the jobs take and whatever blocks arrive, the ledger stays sound and the
jobs stay ready. -/
theorem run_sound (rules : Rules) {requests : List Request} {events : List Event}
    (hfits : RunsFit requests events) :
    ∃ c, ((opened rules requests).run events).Sound c
      (Request.totalOutputCount (requests ++ events.filterMap Event.request?)) := by
  induction events using List.reverseRecOn with
  | nil =>
      rw [RunsFit, List.filterMap_nil, List.append_nil] at hfits
      rw [List.filterMap_nil, List.append_nil]
      exact sound_opened rules hfits
  | append_singleton events e ih =>
      obtain ⟨c, h⟩ := ih hfits.init
      have hcount := RunFits.count hfits
      rw [totalOutputCount_snoc] at hcount ⊢
      rw [run_snoc]
      exact h.perform hfits.last hcount

/-- What becomes of a job that is committed. -/
theorem commitJob_eq {b : Block} (hjob : w.jobs[job]? = some (.found b)) :
    w.commitJob job =
      ⟨(w.ledger.commitMined b).2, w.jobs.set job (.ended (w.ledger.commitMined b).1)⟩ := by
  simp only [commitJob, hjob]

/-- The commit of a block that is stored already ends the job and changes nothing else. -/
theorem commitJob_of_known {b : Block} (h : w.Sound c bound)
    (hjob : w.jobs[job]? = some (.found b)) (hknown : (c.blocks b.hash).isSome) :
    (w.commitJob job).jobs[job]? = some (.ended (.error (.superseded b.hash))) ∧
      (w.commitJob job).ledger = w.ledger := by
  rw [commitJob_eq hjob, Ledger.commitMined_of_known h.holds h.running hknown]
  exact ⟨List.getElem?_set_self (List.getElem?_eq_some_iff.mp hjob).1, rfl⟩

/-! ## How jobs end -/

theorem set_ends {other : Nat} {next : MiningStage} {report : Result Block}
    (hopen : ∀ r, w.jobs[job]? ≠ some (.ended r))
    (hended : (w.jobs.set other next)[job]? = some (.ended report)) :
    other = job ∧ next = .ended report := by
  rw [List.getElem?_set] at hended
  split at hended
  · rename_i hjob
    split at hended
    · exact ⟨hjob, Option.some.inj hended⟩
    · cases hended
  · exact absurd hended (hopen report)

/-- A job ends in one of two ways: its search comes to nothing, or the block that it has
found is committed. -/
theorem perform_ends {e : Event} {report : Result Block}
    (hopen : ∀ r, w.jobs[job]? ≠ some (.ended r))
    (hended : (w.perform e).jobs[job]? = some (.ended report)) :
    (∃ k error, w.jobs[job]? = some (.searching k) ∧ report = .error error ∧
        ∀ hash, error ≠ .superseded hash) ∨
      ∃ b, w.jobs[job]? = some (.found b) ∧ report = (w.ledger.commitMined b).1 ∧
        (w.perform e).ledger = (w.ledger.commitMined b).2 := by
  cases e with
  | start txs miner =>
      simp only [perform, startJob] at hended
      split at hended
      · -- the job that is started is not the one that ends
        rw [List.getElem?_append] at hended
        split at hended
        · exact absurd hended (hopen report)
        · have hmem := List.mem_of_getElem? hended
          rw [List.mem_singleton] at hmem
          cases hmem
      · exact absurd hended (hopen report)
  | search other timestamp calledOff =>
      simp only [perform, searchJob] at hended
      split at hended
      · rename_i k hjob
        obtain ⟨rfl, hnext⟩ := set_ends hopen hended
        cases hseal : w.ledger.sealCandidate timestamp k calledOff with
        | ok b =>
            rw [hseal] at hnext
            cases hnext
        | error error =>
            rw [hseal] at hnext
            obtain rfl := MiningStage.ended.inj hnext
            exact Or.inl ⟨k, error, hjob, rfl, Ledger.sealCandidate_ne_superseded hseal⟩
      · exact absurd hended (hopen report)
  | commit other =>
      simp only [perform, commitJob] at hended
      split at hended
      · rename_i b hjob
        obtain ⟨rfl, hnext⟩ := set_ends hopen hended
        refine Or.inr ⟨b, hjob, (MiningStage.ended.inj hnext).symm, ?_⟩
        rw [perform, commitJob_eq hjob]
      · exact absurd hended (hopen report)
  | accept b => exact absurd hended (hopen report)

/-- Any jobs on a ledger in any state that requests lead to, their steps in any order among
each other and with blocks from elsewhere: when a step ends a job, the report of the job is
right about the store at that moment exactly if the job had not found a block that was on
the active chain before the step. If it had, it reports that its block was superseded. -/
theorem report_truthful_iff (rules : Rules) (requests : List Request) (events : List Event)
    (e : Event) (job : Nat) (report : Result Block) (hfits : RunsFit requests (events ++ [e]))
    (hopen : ∀ r, ((opened rules requests).run events).jobs[job]? ≠ some (.ended r))
    (hended : ((opened rules requests).run (events ++ [e])).jobs[job]? = some (.ended report)) :
    (Chain.Truthful ((opened rules requests).run (events ++ [e])).ledger.store report ↔
        ∀ b, ((opened rules requests).run events).jobs[job]? = some (.found b) →
          Chain.OffActive ((opened rules requests).run events).ledger.store b.hash) ∧
      ∀ b, ((opened rules requests).run events).jobs[job]? = some (.found b) →
        ¬ Chain.OffActive ((opened rules requests).run events).ledger.store b.hash →
          report = .error (.superseded b.hash) := by
  obtain ⟨c, h⟩ := run_sound rules hfits.init
  rw [run_snoc] at hended ⊢
  rcases perform_ends hopen hended with
    ⟨k, error, hsearching, rfl, hother⟩ | ⟨b, hfound, rfl, hledger⟩
  · have hnone : ∀ b, ((opened rules requests).run events).jobs[job]? ≠ some (.found b) := by
      intro b hfound
      cases hsearching.symm.trans hfound
    refine ⟨iff_of_true (Chain.truthful_error hother) fun b hfound => absurd hfound (hnone b),
      fun b hfound => absurd hfound (hnone b)⟩
  · obtain ⟨hattach, hb⟩ := h.ready _ (List.mem_of_getElem? hfound)
    obtain ⟨room, hsound, hroom⟩ := h.contents
    have hle : outputCount b.transactions ≤ ((opened rules requests).run events).pending :=
      outputCount_le_pending hfound
    have hcount := RunFits.count hfits.init
    have hspace : room + outputCount b.transactions < 2 ^ 64 := by omega
    have hreport := Ledger.commitMined_truthful_iff h.holds h.running hsound hb hattach hspace
    simp only [hfound, Option.some.injEq, MiningStage.found.injEq, forall_eq', hledger]
    exact hreport

end Workshop

/-! ## Two jobs with the same work -/

namespace Fork

open Workshop (opened RunsFit)

/-- The block that Bob mines on the root, without any payment. -/
def twin : Block where
  timestamp := 0
  hash := Digest.ofNat 0x50b87bb704135e827c8ea0717555fbb538d6be7eeb75b80b92a62d0093d86b37
  transactions := [Transaction.coinbase bob (Ledger.rewardNote bob 1) 100]
  parent := root.hash
  nonce := 0
  height := 1

/-- The same block, found by a search that began a second later. -/
def laterTwin : Block := { twin with timestamp := 1 }

/-- Bob starts two jobs on the root; both find a block, and the first is committed. -/
def twinEvents : List Workshop.Event :=
  [.start [] bob, .start [] bob, .search 0 0 .never, .search 1 1 .never, .commit 0]

theorem run_twinEvents :
    RunsFit [.accept root] twinEvents ∧
      ((opened rules [.accept root]).run twinEvents).jobs =
        [.ended (.ok twin), .found laterTwin] ∧
      Chain.hashes ((opened rules [.accept root]).run twinEvents).ledger.store =
        .ok [twin.hash, root.hash] := by
  decide +kernel

theorem found_laterTwin :
    ((opened rules [.accept root]).run twinEvents).jobs[1]? = some (.found laterTwin) := by
  rw [run_twinEvents.2.1]
  rfl

theorem not_ended_laterTwin (report : Result Block) :
    ((opened rules [.accept root]).run twinEvents).jobs[1]? ≠ some (.ended report) := by
  intro hended
  cases found_laterTwin.symm.trans hended

/-- The first job's block is on the active chain when the second job is committed. -/
theorem not_offActive_laterTwin : ¬ Chain.OffActive
    ((opened rules [.accept root]).run twinEvents).ledger.store laterTwin.hash := by
  rintro ⟨active, hactive, hnot⟩
  rw [run_twinEvents.2.2] at hactive
  obtain rfl := Except.ok.inj hactive
  exact hnot List.mem_cons_self

/-- The second job finds its block stored already, and its commit changes nothing. -/
theorem commit_laterTwin :
    ((opened rules [.accept root]).run (twinEvents ++ [.commit 1])).jobs[1]? =
        some (.ended (.error (.superseded laterTwin.hash))) ∧
      ((opened rules [.accept root]).run (twinEvents ++ [.commit 1])).ledger =
        ((opened rules [.accept root]).run twinEvents).ledger := by
  obtain ⟨c, h⟩ := Workshop.run_sound rules run_twinEvents.1
  obtain ⟨room, hsound, _⟩ := h.contents
  obtain ⟨bs, hactive⟩ := hsound.exists_active
  have hknown : (c.blocks laterTwin.hash).isSome := by
    refine Option.isSome_iff_ne_none.mpr fun hnew => not_offActive_laterTwin ?_
    exact (Chain.offActive_iff h.holds hsound.linked hactive).mpr
      (Chain.notMem_hashes_of_new hsound.linked hactive hnew)
  rw [Workshop.run_snoc, Workshop.perform]
  exact Workshop.commitJob_of_known h found_laterTwin hknown

/-- The second job ends with the word that its block was superseded, and that is not so. -/
theorem report_truthful_iff_twins :
    RunsFit [.accept root] (twinEvents ++ [.commit 1]) ∧
      (∀ r, ((opened rules [.accept root]).run twinEvents).jobs[1]? ≠ some (.ended r)) ∧
      ((opened rules [.accept root]).run (twinEvents ++ [.commit 1])).jobs[1]? =
        some (.ended (.error (.superseded laterTwin.hash))) ∧
      ¬ Chain.Truthful ((opened rules [.accept root]).run (twinEvents ++ [.commit 1])).ledger.store
        (.error (.superseded laterTwin.hash)) := by
  have hfits : RunsFit [.accept root] (twinEvents ++ [.commit 1]) := by decide
  obtain ⟨hiff, _⟩ := Workshop.report_truthful_iff rules [.accept root] twinEvents (.commit 1) 1
    _ hfits not_ended_laterTwin commit_laterTwin.1
  exact ⟨hfits, not_ended_laterTwin, commit_laterTwin.1,
    fun hright => not_offActive_laterTwin (hiff.mp hright laterTwin found_laterTwin)⟩

/-- Not every job that ends reports the truth. -/
theorem report_not_truthful :
    ¬ ∀ (rules : Rules) (requests : List Request) (events : List Workshop.Event)
        (e : Workshop.Event) (job : Nat) (report : Result Block),
      RunsFit requests (events ++ [e]) →
      (∀ r, ((opened rules requests).run events).jobs[job]? ≠ some (.ended r)) →
      ((opened rules requests).run (events ++ [e])).jobs[job]? = some (.ended report) →
        Chain.Truthful ((opened rules requests).run (events ++ [e])).ledger.store report := by
  intro hall
  obtain ⟨hended, hledger⟩ := commit_laterTwin
  obtain ⟨_, hoff⟩ :=
    hall rules [.accept root] twinEvents (.commit 1) 1 _ (by decide) not_ended_laterTwin hended
  rw [hledger] at hoff
  exact not_offActive_laterTwin hoff

end Fork

end CoinLedger
