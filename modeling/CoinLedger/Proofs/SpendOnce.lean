import CoinLedger.Proofs.Provenance

/-!
# Outputs spent once

A chain spends each output once when every input names an output that was created
earlier on the chain and that no earlier input names. A block that continues the
active chain is checked against the index before it is stored. A block on another
branch is stored without this check, and a switch to the branch makes it part of the
active chain; so the chain of a ledger need not have the property.

The main statement says exactly when it has. The index vouches for the blocks that
were put on top of the tip: their inputs name outputs that are live, which are outputs
not spent before unless a transaction with the same id has created them once more
since. So two things have to be known besides: that the blocks which were stored
beside the active chain spend what they may, and that no output was revived.
-/

namespace CoinLedger

/-! ## Inputs and what was before them -/

/-- An input among the events names the same output. -/
def NamedIn (events : List Event) (i : Input) : Prop :=
  ∃ j, .consume j ∈ events ∧ j.source = i.source ∧ j.index = i.index

/-- A transaction among the events created the output that the input names. -/
def CreatedIn (events : List Event) (i : Input) : Prop :=
  ∃ tx place, .create tx ∈ events ∧ tx.id = i.source ∧ i.place? = some place ∧
    place.toNat < tx.outputs.length

/-- The output that the input names was named by another input, and a transaction of
the same id came after that. -/
def RevivedIn (events : List Event) (i : Input) : Prop :=
  ∃ before j after tx, events = before ++ .consume j :: after ∧
    (j.source = i.source ∧ j.index = i.index) ∧ .create tx ∈ after ∧ tx.id = i.source

/-- The input names an output that has been created and not named before. -/
def FreshIn (events : List Event) (i : Input) : Prop := CreatedIn events i ∧ ¬ NamedIn events i

/-- The input names an output that has been created, and not named before unless it
was created once more. -/
def BackedIn (events : List Event) (i : Input) : Prop :=
  CreatedIn events i ∧ (NamedIn events i → RevivedIn events i)

/-- Every input among the events stands in a relation to all that was before it. -/
def EachInput (P : List Event → Input → Prop) (earlier events : List Event) : Prop :=
  ∀ before i after, events = before ++ .consume i :: after → P (earlier ++ before) i

section

variable {P Q : List Event → Input → Prop} {earlier events : List Event}

theorem eachInput_nil : EachInput P earlier [] := by
  intro before i after h
  simp at h

theorem EachInput.mono (h : EachInput P earlier events)
    (hPQ : ∀ events i, P events i → Q events i) :
    EachInput Q earlier events :=
  fun before i after heq => hPQ _ i (h before i after heq)

theorem EachInput.and (hP : EachInput P earlier events) (hQ : EachInput Q earlier events) :
    EachInput (fun events i => P events i ∧ Q events i) earlier events :=
  fun before i after heq => ⟨hP before i after heq, hQ before i after heq⟩

theorem eachInput_cons {e : Event} :
    EachInput P earlier (e :: events) ↔
      (∀ i, e = .consume i → P earlier i) ∧ EachInput P (earlier ++ [e]) events := by
  constructor
  · refine fun h => ⟨?_, ?_⟩
    · rintro i rfl
      have hfirst := h [] i events rfl
      rwa [List.append_nil] at hfirst
    · intro before i after heq
      have hrest := h (e :: before) i after (by rw [heq, List.cons_append])
      rwa [← List.append_cons]
  · rintro ⟨hfirst, hrest⟩ before i after heq
    cases before with
    | nil =>
        obtain ⟨rfl, _⟩ := List.cons.inj heq
        rw [List.append_nil]
        exact hfirst i rfl
    | cons e' before =>
        obtain ⟨rfl, htail⟩ := List.cons.inj heq
        rw [List.append_cons]
        exact hrest before i after htail

theorem eachInput_append {more : List Event} :
    EachInput P earlier (events ++ more) ↔
      EachInput P earlier events ∧ EachInput P (earlier ++ events) more := by
  induction events generalizing earlier with
  | nil => simp [eachInput_nil]
  | cons e rest ih =>
      rw [List.cons_append, eachInput_cons, eachInput_cons, ih, and_assoc, ← List.append_cons]

end

/-- Each output of the chain is spent at most once, and after it was created. -/
def SpendsOnce (bs : List Block) : Prop := EachInput FreshIn [] (Block.chainEvents bs)

/-- Every block of a chain can be looked at on its own. -/
theorem eachInput_chainEvents {P : List Event → Input → Prop} {bs : List Block} :
    EachInput P [] (Block.chainEvents bs) ↔ ∀ later b earlier, bs = later ++ b :: earlier →
      EachInput P (Block.chainEvents earlier) b.events := by
  induction bs with
  | nil =>
      refine ⟨fun _ later b earlier heq => ?_, fun _ => eachInput_nil⟩
      simp at heq
  | cons t rest ih =>
      rw [Block.chainEvents_cons, eachInput_append, ih, List.nil_append]
      constructor
      · rintro ⟨hrest, hfirst⟩ later b earlier heq
        cases later with
        | nil =>
            obtain ⟨rfl, rfl⟩ := List.cons.inj heq
            exact hfirst
        | cons _ later => exact hrest later b earlier (List.cons.inj heq).2
      · intro h
        exact ⟨fun later b earlier heq => h (t :: later) b earlier (by rw [heq, List.cons_append]),
          h [] t rest rfl⟩

/-! ## What the index vouches for -/

namespace Index

variable {m m' : Index} {earlier events : List Event}

theorem TracedBy.backed {i : Input} (ht : m.TracedBy earlier) (h : m.consume i = some m') :
    BackedIn earlier i := by
  obtain ⟨place, e, hplace, he, hholds, _⟩ := consume_eq_some.mp h
  rw [Entry.holds, List.any_eq_true] at hholds
  obtain ⟨p, hp, hpplace⟩ := hholds
  obtain rfl : p.1 = place := by simpa using hpplace
  have hlisted : p ∈ m.outputs i.source := by rw [outputs, he]; exact hp
  obtain ⟨before, tx, after, rfl, hid, hmem, hunspent⟩ := ht i.source p hlisted
  refine ⟨⟨tx, p.1, by simp, hid, hplace, ?_⟩, ?_⟩
  · obtain ⟨⟨o, n⟩, hn, rfl⟩ := List.mem_map.mp hmem
    have hlt := (List.mem_zipIdx hn).2.1
    have hle : (UInt32.ofNat n).toNat ≤ n := by
      rw [UInt32.toNat_ofNat']
      exact Nat.mod_le n _
    show (UInt32.ofNat n).toNat < tx.outputs.length
    omega
  · rintro ⟨j, hj, hsource, hindex⟩
    have hjout : j.outpoint? = some ⟨i.source, p.1⟩ := by
      have : j.place? = some p.1 := by rw [← hplace, Input.place?, Input.place?, hindex]
      rw [Input.outpoint?, this, hsource]
      rfl
    rcases List.mem_append.mp hj with hj | hj
    -- the other input came before the creation, since none came after it
    · obtain ⟨first, second, rfl⟩ := List.append_of_mem hj
      refine ⟨first, j, second ++ .create tx :: after, tx, by simp, ⟨hsource, hindex⟩, by simp, hid⟩
    · rcases List.mem_cons.mp hj with hj | hj
      · cases hj
      · exact absurd hjout (hunspent j hj)

/-- An index that can follow events vouches for all their inputs. -/
theorem TracedBy.follow_backed (ht : m.TracedBy earlier) (h : m.follow events = some m') :
    EachInput BackedIn earlier events := by
  induction events generalizing m earlier with
  | nil => exact eachInput_nil
  | cons e rest ih =>
      obtain ⟨n, hstep, hrest⟩ := follow_cons.mp h
      rw [eachInput_cons]
      refine ⟨?_, ih (ht.step hstep) hrest⟩
      rintro i rfl
      exact ht.backed hstep

end Index

/-- Inputs that are backed are fresh where nothing was revived. -/
theorem EachInput.fresh {earlier events : List Event} (h : EachInput BackedIn earlier events)
    (hrevived : EachInput (fun events i => ¬ RevivedIn events i) earlier events) :
    EachInput FreshIn earlier events :=
  (h.and hrevived).mono fun _ _ hboth => ⟨hboth.1.1, fun hnamed => hboth.2 (hboth.1.2 hnamed)⟩

theorem FreshIn.not_revived {events : List Event} {i : Input} (h : FreshIn events i) :
    ¬ RevivedIn events i := by
  rintro ⟨before, j, after, tx, rfl, hsame, _⟩
  exact h.2 ⟨j, by simp, hsame⟩

namespace Session

/-! ## Along a run -/

/-- What a run keeps: it leads to a sound session whose index is traced, and every
block that was put on top of the tip is stored and has its inputs backed. -/
structure Vouched (rules : Rules) (requests : List Request) (c : Contents) : Prop where
  sound : ((start rules).run requests).Sound c (Request.totalOutputCount requests)
  traced : c.Traced
  stored : ∀ b, AppendedIn rules requests b → c.blocks b.hash = some b
  backed : ∀ b rest, AppendedIn rules requests b → Ancestry c.blocks b.hash (b :: rest) →
    EachInput BackedIn (Block.chainEvents rest) b.events

theorem not_appendedIn_nil {rules : Rules} {b : Block} : ¬ AppendedIn rules [] b := by
  rintro ⟨before, r, after, heq, _⟩
  simp at heq

theorem appendedIn_snoc {rules : Rules} {requests : List Request} {r : Request} {b : Block} :
    AppendedIn rules (requests ++ [r]) b ↔ AppendedIn rules requests b ∨
      Appends ((start rules).run requests) ((start rules).run (requests ++ [r])) b := by
  constructor
  · rintro ⟨before, r', after, heq, happends⟩
    rcases split_snoc heq with ⟨rfl, rfl⟩ | ⟨rest, hrest⟩
    · exact Or.inr happends
    · exact Or.inl ⟨before, r', rest, hrest, happends⟩
  · rintro (⟨before, r', after, rfl, happends⟩ | happends)
    · exact ⟨before, r', after ++ [r], by simp, happends⟩
    · exact ⟨requests, r, [], rfl, happends⟩

end Session

/-- Putting a block on top of the tip gives it backed inputs. -/
theorem Contents.Step.backed_of_appended {c c' : Contents} {room : Nat} {b : Block}
    {rest : List Block} (hstep : c.Step c') (h : c.Sound room) (ht : c.Traced)
    (hzero : c.tip ≠ some Digest.zero) (hext : c.ExtendedBy b) (hnew : c.blocks b.hash = none)
    (hstored : c'.blocks b.hash = some b) (ha : Ancestry c'.blocks b.hash (b :: rest)) :
    EachInput BackedIn (Block.chainEvents rest) b.events := by
  rcases hstep.appended hzero hext hnew hstored with
    ⟨_, _, ⟨lock, note, reward, htxs⟩, _⟩ | ⟨m, hattach, hm, rfl⟩
  · have hevents : b.events = [.create (Transaction.coinbase lock note reward)] := by
      rw [Block.events, htxs]
      rfl
    rw [hevents, eachInput_cons]
    refine ⟨?_, eachInput_nil⟩
    intro i hi
    cases hi
  · obtain ⟨rest', heq, hrest⟩ := h.active_onTip hnew hattach hext
      (fun hg => hext.tip_eq_none hzero hg) ha
    obtain ⟨_, rfl⟩ := List.cons.inj heq
    exact (ht rest hrest).follow_backed hm

namespace Session

/-- The step from one state of a run to the next. -/
theorem Vouched.step {rules : Rules} {requests : List Request} {c : Contents} {r : Request}
    (h : Vouched rules requests c) (hfits : RunFits (requests ++ [r]))
    (hzero : ((start rules).run requests).NoZeroHash) :
    ∃ c', Vouched rules (requests ++ [r]) c' := by
  obtain ⟨c', hsound, hstep⟩ := h.sound.run_snoc hfits
  have htip := h.sound.tip_ne_zero hzero
  refine ⟨c', hsound, hstep.traced h.sound.contents h.traced htip, ?_, ?_⟩
  · intro b hb
    rcases appendedIn_snoc.mp hb with hb | hb
    · exact hstep.blocks_subset _ _ (h.stored b hb)
    · exact ((h.sound.appends_iff hsound).mp hb).2.2
  · intro b rest hb ha
    -- the ancestry of an old block is the one it had
    rcases appendedIn_snoc.mp hb with hb | hb
    · obtain ⟨cs, hcs⟩ := h.sound.contents.linked.exists_ancestry (h.stored b hb)
      obtain rfl := ha.unique (hcs.mono hstep.blocks_subset)
      exact h.backed b rest hb hcs
    · obtain ⟨hext, hnew, hstored⟩ := (h.sound.appends_iff hsound).mp hb
      exact hstep.backed_of_appended h.sound.contents h.traced htip hext hnew hstored ha

theorem exists_vouched (rules : Rules) {requests : List Request} (hfits : RunFits requests)
    (hzero : ((start rules).run requests).NoZeroHash) : ∃ c, Vouched rules requests c := by
  induction requests using List.reverseRecOn with
  | nil =>
      refine ⟨Contents.empty, sound_start rules, Contents.traced_empty, ?_, ?_⟩
      · exact fun b hb => absurd hb not_appendedIn_nil
      · exact fun b rest hb => absurd hb not_appendedIn_nil
  | append_singleton requests r ih =>
      obtain ⟨c, h⟩ := ih hfits.init (hzero.init hfits)
      exact h.step hfits (hzero.init hfits)

/-! ## When the active chain spends each output once -/

/-- The active chain of a ledger can be read, and spends each output once exactly when
this holds for the blocks that were not put on top of the tip when they were stored,
and no output on the chain was spent, created once more, and spent again. -/
theorem spendsOnce_iff (rules : Rules) (requests : List Request) (hfits : RunFits requests)
    (hzero : ((start rules).run requests).NoZeroHash) :
    ∃ bs, Chain.blocks ((start rules).run requests).ledger.store = .ok bs ∧
      (SpendsOnce bs ↔
        (∀ later b earlier, bs = later ++ b :: earlier → ¬ AppendedIn rules requests b →
          EachInput FreshIn (Block.chainEvents earlier) b.events) ∧
        EachInput (fun events i => ¬ RevivedIn events i) [] (Block.chainEvents bs)) := by
  obtain ⟨c, h⟩ := exists_vouched rules hfits hzero
  obtain ⟨bs, ha⟩ := h.sound.contents.exists_active
  refine ⟨bs, Chain.blocks_eq h.sound.holds h.sound.contents.linked ha, ?_⟩
  rw [SpendsOnce]
  constructor
  · intro hfresh
    exact ⟨fun later b earlier heq _ => eachInput_chainEvents.mp hfresh later b earlier heq,
      hfresh.mono fun _ _ => FreshIn.not_revived⟩
  · rintro ⟨hbeside, hrevived⟩
    rw [eachInput_chainEvents] at hrevived ⊢
    intro later b earlier heq
    by_cases happended : AppendedIn rules requests b
    · have hsuffix : Ancestry c.blocks b.hash (b :: earlier) :=
        h.sound.contents.linked.suffix ha heq
      exact (h.backed b earlier happended hsuffix).fresh (hrevived later b earlier heq)
    · exact hbeside later b earlier heq happended

/-! ## A chain that spends an output twice -/

/-- The blocks of both branches, the shorter branch first. -/
def forkRequests : List Request :=
  [.accept Fork.root, .accept Fork.shorter, .accept Fork.longer, .accept Fork.longest]

theorem run_forkRequests :
    Chain.blocks ((start Fork.rules).run forkRequests).ledger.store =
        .ok [Fork.longest, Fork.longer, Fork.root] ∧
      ((start Fork.rules).run forkRequests).NoZeroHash := by
  decide +kernel

/-- Neither block of the longer branch is checked for what it spends: the first arrives
beside the tip, and the second makes the branch the active chain. Both hold the payment. -/
theorem fork_spends_twice :
    RunFits forkRequests ∧ ((start Fork.rules).run forkRequests).NoZeroHash ∧
      ∃ bs, Chain.blocks ((start Fork.rules).run forkRequests).ledger.store = .ok bs ∧
        ¬ SpendsOnce bs := by
  refine ⟨by decide, run_forkRequests.2, _, run_forkRequests.1, fun hspends => ?_⟩
  have hlongest := eachInput_chainEvents.mp hspends [] Fork.longest [Fork.longer, Fork.root] rfl
  have hfresh := hlongest [_] Fork.spend [_] rfl
  have hearlier : .consume Fork.spend ∈ Fork.longer.events := by
    refine List.mem_flatMap.mpr ⟨Fork.payment, by simp [Fork.longer], ?_⟩
    exact List.mem_append_left _ (List.mem_map.mpr ⟨Fork.spend, by decide, rfl⟩)
  refine hfresh.2 ⟨Fork.spend, ?_, rfl, rfl⟩
  rw [Block.chainEvents_cons]
  exact List.mem_append_left _ (List.mem_append_right _ hearlier)

/-- For the fork the condition comes down to the blocks of the longer branch. -/
theorem spendsOnce_fork_iff :
    SpendsOnce [Fork.longest, Fork.longer, Fork.root] ↔
      (∀ later b earlier, [Fork.longest, Fork.longer, Fork.root] = later ++ b :: earlier →
        ¬ AppendedIn Fork.rules forkRequests b →
          EachInput FreshIn (Block.chainEvents earlier) b.events) ∧
      EachInput (fun events i => ¬ RevivedIn events i) []
        (Block.chainEvents [Fork.longest, Fork.longer, Fork.root]) := by
  obtain ⟨bs, hbs, hiff⟩ := spendsOnce_iff Fork.rules forkRequests (by decide) run_forkRequests.2
  obtain rfl := Except.ok.inj (hbs.symm.trans run_forkRequests.1)
  exact hiff

end Session

end CoinLedger
