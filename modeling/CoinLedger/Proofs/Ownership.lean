import CoinLedger.Proofs.Provenance

/-!
# Only the owner spends

A signature is checked against the transaction that the active chain has under an
id, while an output leaves the index by the id alone. The two are tied together by
what a run keeps: the index lists outputs of the active chain, and every stored
transaction is under the hash of its content. So two stored transactions of one id
have the same outputs, or their contents are a collision of SHA-256.

The main statement is `Session.spent_by_owner`: in a run of beginnings and accepted
blocks, an output that a block on top of the tip takes out of the index is claimed
by an input of the block, with a key that the output is locked to and a signature
under this key. Places are numbers of 32 bits, so the statement leaves out
transactions with more outputs than there are places.
-/

namespace CoinLedger

/-! ## What a verified input shows -/

theorem References.output?_eq_some {refs : References} {i : Input} {out : Output} :
    refs.output? i = some out ↔ ∃ place tx, i.place? = some place ∧ refs.find? i.source = some tx ∧
      tx.outputs[place.toNat]? = some out := by
  simp only [output?, Option.bind_eq_bind, Option.bind_eq_some_iff]
  constructor
  · rintro ⟨place, hplace, tx, htx, hout⟩
    exact ⟨place, tx, hplace, htx, hout⟩
  · rintro ⟨place, tx, hplace, htx, hout⟩
    exact ⟨place, hplace, tx, htx, hout⟩

theorem Secp256k1.length_of_verify {key signature : Bytes} {digest : Digest}
    (h : verify key digest signature = true) : signature.length = 64 := by
  unfold verify Signature.ofBytes? at h
  by_contra hlength
  rw [if_neg hlength] at h
  cases h

namespace Transaction

theorem verifies_input {S : SignatureScheme} {refs : References} {tx : Transaction}
    (h : tx.verifies S refs = true) (hspends : tx.isCoinbase = false) {position : Nat} {i : Input}
    (hi : tx.inputs[position]? = some i) :
    ∃ out, refs.output? i = some out ∧ lockingHash i.key = out.lock ∧
      S.verify i.key (tx.signingDigest position out.lock) i.signature = true := by
  rw [verifies, hspends, Bool.false_or, List.all_eq_true] at h
  have hverifies : tx.inputVerifies S refs position i = true :=
    h (i, position) (List.mem_zipIdx_iff_getElem?.mpr hi)
  unfold inputVerifies at hverifies
  cases hout : refs.output? i with
  | none =>
      rw [hout] at hverifies
      cases hverifies
  | some out =>
      simp only [hout, Bool.and_eq_true, Input.usesKey, decide_eq_true_iff] at hverifies
      exact ⟨out, rfl, hverifies.1, hverifies.2⟩

theorem mem_spends {tx : Transaction} {i : Input} (h : i ∈ tx.spends) :
    tx.isCoinbase = false ∧ i ∈ tx.inputs := by
  unfold spends at h
  split at h
  · cases h
  · rename_i hcoinbase
    exact ⟨by simpa using hcoinbase, h⟩

/-! ## Contents and their hashes -/

theorem contentHash_coinbase (lock note : Bytes) (reward : UInt64) :
    (coinbase lock note reward).contentHash = (coinbase lock note reward).id := rfl

/-- The inputs and the outputs are what the id is the hash of. -/
theorem parts_of_idPreimage {tx tx' : Transaction} (h : tx.Fits) (h' : tx'.Fits)
    (heq : tx.idPreimage = tx'.idPreimage) : tx.inputs = tx'.inputs ∧ tx.outputs = tx'.outputs := by
  have hfits : LawfulRecord.Fits { tx with id := Digest.zero } :=
    Transaction.Fits.mk h.inputs_length h.inputs h.outputs_length h.outputs
  have hfits' : LawfulRecord.Fits { tx' with id := Digest.zero } :=
    Transaction.Fits.mk h'.inputs_length h'.inputs h'.outputs_length h'.outputs
  have hcleared := Record.encode_injective hfits hfits' heq
  exact (Transaction.mk.inj hcleared).2

/-- Two transactions of one content hash have the same outputs, or are a collision. -/
theorem outputs_eq_or_collision {tx tx' : Transaction} (h : tx.Fits) (h' : tx'.Fits)
    (heq : tx.contentHash = tx'.contentHash) :
    tx.outputs = tx'.outputs ∨ IsCollision tx.idPreimage tx'.idPreimage := by
  by_cases hsame : tx.idPreimage = tx'.idPreimage
  · exact Or.inl (parts_of_idPreimage h h' hsame).2
  · exact Or.inr ⟨hsame, heq⟩

/-- The place of an output is its position, as long as there are places enough. -/
theorem getElem?_of_mem_indexedOutputs {tx : Transaction} {p : UInt32 × Output}
    (h : p ∈ tx.indexedOutputs) (hplaces : tx.outputs.length ≤ 2 ^ 32) :
    tx.outputs[p.1.toNat]? = some p.2 := by
  obtain ⟨⟨out, n⟩, hmem, rfl⟩ := List.mem_map.mp h
  have hout := List.mem_zipIdx_iff_getElem?.mp hmem
  have hn : n < tx.outputs.length := (List.getElem?_eq_some_iff.mp hout).1
  show tx.outputs[(UInt32.ofNat n).toNat]? = some out
  rw [UInt32.toNat_ofNat_of_lt' (Nat.lt_of_lt_of_le hn hplaces)]
  exact hout

end Transaction

/-- The transaction is in a block of the store. -/
def Chain.Includes (s : Store) (tx : Transaction) : Prop :=
  ∃ b, Chain.block s b.hash = .ok b ∧ tx ∈ b.transactions

/-- Two transactions of the store have different contents with one hash. -/
def Chain.HasCollision (s : Store) : Prop :=
  ∃ tx tx', Includes s tx ∧ Includes s tx' ∧ IsCollision tx.idPreimage tx'.idPreimage

/-- An input of the block claims the output at an outpoint, with a key that hashes to
the lock and a signature under this key. -/
def Block.ClaimsWithKey (b : Block) (o : Outpoint) (lock : Bytes) : Prop :=
  ∃ tx ∈ b.transactions, tx.isCoinbase = false ∧ ∃ position i, tx.inputs[position]? = some i ∧
    i.outpoint? = some o ∧ lockingHash i.key = lock ∧ i.signature.length = 64 ∧
    Secp256k1.verify i.key (tx.signingDigest position lock) i.signature = true

namespace Index

variable {m m' : Index} {events : List Event}

/-- What following events takes out of an index was consumed, or a transaction of the
same id without it took its place. -/
theorem follow_removed {id : Digest} {p : UInt32 × Output} (h : m.follow events = some m')
    (hbefore : p ∈ m.outputs id) (hafter : p ∉ outputs m' id) :
    (∃ i, .consume i ∈ events ∧ i.outpoint? = some ⟨id, p.1⟩) ∨
      ∃ tx, .create tx ∈ events ∧ tx.id = id ∧ p ∉ tx.indexedOutputs := by
  induction events generalizing m with
  | nil =>
      obtain rfl := Option.some.inj h
      exact absurd hbefore hafter
  | cons e rest ih =>
      obtain ⟨n, hstep, hrest⟩ := follow_cons.mp h
      by_cases hstill : p ∈ outputs n id
      · rcases ih hrest hstill with ⟨i, hi, hout⟩ | ⟨tx, htx, hid, hnot⟩
        · exact Or.inl ⟨i, List.mem_cons_of_mem _ hi, hout⟩
        · exact Or.inr ⟨tx, List.mem_cons_of_mem _ htx, hid, hnot⟩
      -- the first event is the one that took it out
      · cases e with
        | consume i =>
            left
            rw [outputs_consume hstep, List.mem_filter] at hstill
            exact ⟨i, List.mem_cons_self, by simpa [hbefore] using hstill⟩
        | create tx =>
            right
            obtain rfl := Option.some.inj hstep
            by_cases hid : id = tx.id
            · subst hid
              rw [outputs_create_self] at hstill
              exact ⟨tx, List.mem_cons_self, rfl, hstill⟩
            · rw [outputs_create_of_ne hid] at hstill
              exact absurd hbefore hstill

/-- An output that following a signed block takes out of a traced index is claimed with
a key that it is locked to. The transactions of the chain and of the block are under
the hashes of their contents; so the one that the signature was checked against has
the outputs of the one that the index has the output from. -/
theorem TracedBy.claimed {bs : List Block} {b : Block} {o : Outpoint} {out : Output}
    (ht : m.TracedBy (Block.chainEvents bs)) (hm : m.follow b.events = some m')
    (hfits : ∀ tx ∈ Block.chainTransactions (b :: bs), tx.Fits)
    (hids : ∀ tx ∈ Block.chainTransactions (b :: bs), tx.contentHash = tx.id)
    (hsigned : ∀ tx ∈ b.transactions, tx.isCoinbase = false →
      ∃ refs, Chain.FoundOn bs refs ∧ tx.verifies Secp256k1.scheme refs = true)
    (hlisted : (o.index, out) ∈ m.outputs o.source)
    (hgone : (o.index, out) ∉ outputs m' o.source) :
    b.ClaimsWithKey o out.lock ∨
      (∃ tx ∈ Block.chainTransactions (b :: bs), ∃ tx' ∈ Block.chainTransactions (b :: bs),
        IsCollision tx.idPreimage tx'.idPreimage) ∨
      ∃ tx ∈ Block.chainTransactions (b :: bs), tx.id = o.source ∧ 2 ^ 32 < tx.outputs.length := by
  obtain ⟨before, creator, after, hevents, hid, hmem, _⟩ := ht o.source _ hlisted
  have hcreator : creator ∈ Block.chainTransactions (b :: bs) := by
    have hcreate : .create creator ∈ Block.chainEvents bs := by
      rw [hevents]
      exact List.mem_append_right _ List.mem_cons_self
    obtain ⟨t, htb, htx⟩ := Block.create_mem_chainEvents hcreate
    exact List.mem_flatMap.mpr ⟨t, List.mem_cons_of_mem _ htb, htx⟩
  have hsame : ∀ tx ∈ Block.chainTransactions (b :: bs), tx.id = o.source →
      tx.outputs = creator.outputs ∨ IsCollision tx.idPreimage creator.idPreimage := by
    intro tx htx htxid
    refine Transaction.outputs_eq_or_collision (hfits tx htx) (hfits creator hcreator) ?_
    rw [hids tx htx, hids creator hcreator, htxid, hid]
  by_cases hplaces : creator.outputs.length ≤ 2 ^ 32
  swap
  · exact Or.inr (Or.inr ⟨creator, hcreator, hid, Nat.lt_of_not_le hplaces⟩)
  rcases follow_removed hm hlisted hgone with ⟨i, hi, hout⟩ | ⟨tx, htx, htxid, hnot⟩
  -- the signature was checked against what the chain has under the id of the output
  · obtain ⟨tx, htx, hspend⟩ := consume_mem_events hi
    obtain ⟨hspends, hinput⟩ := Transaction.mem_spends hspend
    obtain ⟨position, hposition⟩ := List.mem_iff_getElem?.mp hinput
    obtain ⟨refs, hfound, hverifies⟩ := hsigned tx htx hspends
    obtain ⟨checked, hchecked, hlock, hverify⟩ :=
      Transaction.verifies_input hverifies hspends hposition
    obtain ⟨place, source, hplace, hsource, hat⟩ := References.output?_eq_some.mp hchecked
    obtain rfl : o = ⟨i.source, place⟩ := by
      rw [Input.outpoint?, hplace] at hout
      exact (Option.some.inj hout).symm
    have hfind := hfound _ _ hsource
    have honchain : source ∈ Block.chainTransactions (b :: bs) := by
      rw [Block.chainTransactions, List.flatMap_cons]
      exact List.mem_append_right _ (List.mem_of_find?_eq_some hfind)
    rcases hsame source honchain (by simpa using List.find?_some hfind) with houtputs | hcollision
    · have hout' := Transaction.getElem?_of_mem_indexedOutputs hmem hplaces
      rw [houtputs, hout'] at hat
      obtain rfl := Option.some.inj hat
      exact Or.inl ⟨tx, htx, hspends, position, i, hposition, hout, hlock,
        Secp256k1.length_of_verify hverify, hverify⟩
    · exact Or.inr (Or.inl ⟨source, honchain, creator, hcreator, hcollision⟩)
  · -- a transaction of the same content would have put the output back
    have hinblock : tx ∈ Block.chainTransactions (b :: bs) := by
      rw [Block.chainTransactions, List.flatMap_cons]
      exact List.mem_append_left _ (create_mem_events htx)
    rcases hsame tx hinblock htxid with houtputs | hcollision
    · rw [Transaction.indexedOutputs, houtputs] at hnot
      exact absurd hmem hnot
    · exact Or.inr (Or.inl ⟨tx, hinblock, creator, hcreator, hcollision⟩)

end Index

namespace Contents

variable {c c' : Contents} {b : Block} {room : Nat}

/-- Every stored transaction is under the hash of its content. -/
def HasContentIds (c : Contents) : Prop :=
  ∀ hash b, c.blocks hash = some b → ∀ tx ∈ b.transactions, tx.contentHash = tx.id

theorem Places.blocks_eq {flag : Bool} (h : c.Places b flag c') :
    c'.blocks = (c.withBlock b).blocks := by
  cases h <;> rfl

theorem HasContentIds.withBlock (h : c.HasContentIds)
    (hb : ∀ tx ∈ b.transactions, tx.contentHash = tx.id)
    (hblocks : c'.blocks = (c.withBlock b).blocks) : c'.HasContentIds := by
  intro hash t ht
  rw [hblocks] at ht
  rcases blocks_withBlock_cases ht with ⟨_, rfl⟩ | ht
  · exact hb
  · exact h hash t ht

/-- A new block and the active chain under it are stored together. -/
theorem Sound.stored_withBlock {bs : List Block} (h : c.Sound room) (hnew : c.blocks b.hash = none)
    (ha : c.Active bs) : ∀ t ∈ b :: bs, (c.withBlock b).blocks t.hash = some t := by
  intro t ht
  rcases List.mem_cons.mp ht with rfl | ht
  · exact blocks_withBlock_self c t
  · obtain ⟨name, hname⟩ := ha.stored t ht
    obtain rfl := h.linked.named name t hname
    exact blocks_subset_withBlock hnew _ _ hname

/-- A block of height zero does not overtake another. -/
theorem OvertakenBy.tip_eq_none (hover : c.OvertakenBy b) (htip : c.HasTip)
    (hheight : b.height = 0) :
    c.tip = none := by
  cases hc : c.tip with
  | none => rfl
  | some hash =>
      obtain ⟨t, ht⟩ := htip hash hc
      have hlt := hover hash t hc ht
      rw [hheight, UInt64.lt_iff_toNat_lt] at hlt
      exact absurd hlt (Nat.not_lt_zero _)

end Contents

/-- A chain is begun, or a block from elsewhere is accepted. -/
def Request.BeginsOrAccepts : Request → Prop
  | genesis .. => True
  | accept _ => True
  | _ => False

namespace Session

variable {σ : Session} {c c' : Contents} {bs : List Block} {b : Block} {room room' : Nat}

/-! ## Along a run -/

/-- What accepting a block can do to the contents. -/
theorem Sound.accepted (h : σ.Sound c room) (ha : c.Active bs) (hb : b.Fits)
    (hroom : room + outputCount b.transactions < 2 ^ 64)
    (h' : (σ.perform (.accept b)).2.Sound c' room') :
    c' = c ∨ (c.Attaches b ∧ σ.ledger.rules.Admits b ∧
      (∀ tx ∈ b.transactions, tx.isCoinbase = false → σ.ledger.Signed bs tx) ∧
      ∃ flag, c.Places b flag c') := by
  have hholds : (σ.ledger.acceptBlock b).2.store.Holds c' := h'.holds
  rcases Ledger.acceptBlock_cases h.holds h.running h.contents ha hb hroom with
    ⟨e, _, herror⟩ | ⟨hattach, hadmits, hsigned, ⟨_, hkeep⟩ | ⟨flag, t, c'', ht, hplaced, hplace⟩⟩
  · rw [herror] at hholds
    exact Or.inl (hholds.contents_eq h.holds)
  · rw [hkeep] at hholds
    exact Or.inl (hholds.contents_eq h.holds)
  · rw [ht] at hholds
    obtain rfl := hholds.contents_eq hplaced
    exact Or.inr ⟨hattach, hadmits, hsigned, flag, hplace⟩

/-- What beginning a chain can do to the contents. -/
theorem Sound.begun (h : σ.Sound c room) {lock : Bytes} (hlock : lock.length < 2 ^ 64)
    {timestamp : Int64} (h' : (σ.perform (.genesis timestamp lock)).2.Sound c' room') :
    c' = c ∨ ∃ b, c = Contents.empty ∧ σ.ledger.rules.Begins lock b ∧
      c' = ((c.withBlock b).withTip b.hash).withIndex (Index.ofChain [b]) := by
  have hholds : (σ.ledger.createGenesis timestamp lock).2.store.Holds c' := h'.holds
  rcases Ledger.createGenesis_cases h.holds h.running h.contents hlock timestamp with
    ⟨e, _, herror⟩ | ⟨b, t, hempty, hbegins, hok, hbegun⟩
  · rw [herror] at hholds
    exact Or.inl (hholds.contents_eq h.holds)
  · rw [hok] at hholds
    exact Or.inr ⟨b, hempty, hbegins, hholds.contents_eq hbegun⟩

/-- What a run of beginnings and accepted blocks keeps besides soundness. -/
structure Grounded (rules : Rules) (σ : Session) (c : Contents) (room : Nat) : Prop where
  sound : σ.Sound c room
  rules_eq : σ.ledger.rules = rules
  traced : c.Traced
  ids : c.HasContentIds

theorem grounded_start (rules : Rules) : Grounded rules (start rules) Contents.empty 0 where
  sound := sound_start rules
  rules_eq := rfl
  traced := Contents.traced_empty
  ids _ _ h := by cases h

/-- What is known of the transactions in stored blocks. -/
theorem Grounded.known {rules : Rules} (h : Grounded rules σ c room)
    (hstored : ∀ b ∈ bs, c.blocks b.hash = some b) : ∀ tx ∈ Block.chainTransactions bs,
      Chain.Includes σ.ledger.store tx ∧ tx.Fits ∧ tx.contentHash = tx.id := by
  intro tx htx
  obtain ⟨b, hb, htx⟩ := List.mem_flatMap.mp htx
  have hblock := hstored b hb
  exact ⟨⟨b, Chain.block_of_some h.sound.holds hblock, htx⟩,
    (h.sound.holds.blocks_fit _ b hblock).transactions tx htx, h.ids _ b hblock tx htx⟩

theorem Grounded.perform {rules : Rules} (h : Grounded rules σ c room) {r : Request}
    (hkind : r.BeginsOrAccepts) (hr : r.Fits) (hroom : room + r.outputCount < 2 ^ 64) :
    ∃ c', Grounded rules (σ.perform r).2 c' (room + r.outputCount) := by
  obtain ⟨c', hperforms⟩ := h.sound.perform hr hroom
  suffices hkeeps : c'.Traced ∧ c'.HasContentIds from
    ⟨c', hperforms.sound, hperforms.rules.trans h.rules_eq, hkeeps.1, hkeeps.2⟩
  cases r with
  | genesis timestamp lock =>
      rcases h.sound.begun hr hperforms.sound with rfl | ⟨b, hempty, hbegins, rfl⟩
      · exact ⟨h.traced, h.ids⟩
      · have htip : c.tip ≠ some Digest.zero := by
          rw [hempty]
          exact fun hsome => nomatch hsome
        refine ⟨hperforms.step.traced h.sound.contents h.traced htip, h.ids.withBlock ?_ rfl⟩
        intro tx htx
        rw [hbegins.transactions, List.mem_singleton] at htx
        rw [htx, Transaction.contentHash_coinbase]
  | accept b =>
      obtain ⟨bs, ha⟩ := h.sound.contents.exists_active
      rcases h.sound.accepted ha hr hroom hperforms.sound with
        rfl | ⟨hattach, hadmits, _, flag, hplace⟩
      · exact ⟨h.traced, h.ids⟩
      · refine ⟨hplace.traced h.sound.contents h.traced hattach ?_, ?_⟩
        · exact fun hgenesis _ hover =>
            hover.tip_eq_none h.sound.contents.hasTip (hadmits.height hgenesis)
        · exact h.ids.withBlock hadmits.ids hplace.blocks_eq
  | _ => exact hkind.elim

theorem exists_grounded (rules : Rules) {requests : List Request}
    (hkinds : ∀ r ∈ requests, r.BeginsOrAccepts) (hfits : RunFits requests) :
    ∃ c, Grounded rules ((start rules).run requests) c (Request.totalOutputCount requests) := by
  induction requests using List.reverseRecOn with
  | nil => exact ⟨Contents.empty, grounded_start rules⟩
  | append_singleton requests r ih =>
      obtain ⟨c, h⟩ := ih (fun r' hr' => hkinds r' (List.mem_append_left _ hr')) hfits.init
      have hcount := hfits.count
      rw [Request.totalOutputCount_snoc] at hcount ⊢
      rw [Session.run_snoc]
      exact h.perform (hkinds r (List.mem_append_right _ List.mem_cons_self)) hfits.last hcount

/-! ## Outputs leave the index by their owners -/

/-- The store that a run leads to. -/
def storeAfter (rules : Rules) (requests : List Request) : Store :=
  ((start rules).run requests).ledger.store

/-- An output that was in the index before a block on top of the tip was accepted, and
is not there afterwards, was claimed by an input of the block, with a key that the
output is locked to and a signature under this key. The exceptions are a collision of
SHA-256 among the transactions of the run, and a transaction in which two outputs
share a place because it has more than there are places. -/
theorem spent_by_owner (d : Difficulty) (reward : UInt64) (requests : List Request) (b : Block)
    (o : Outpoint) (out : Output) (hkinds : ∀ r ∈ requests, r.BeginsOrAccepts)
    (hfits : RunFits (requests ++ [.accept b]))
    (hext : Ledger.extendsTip (storeAfter ⟨d, reward, Secp256k1.scheme⟩ requests) b = .ok true)
    (hlisted : (o.index, out) ∈
      (Unspent.index (storeAfter ⟨d, reward, Secp256k1.scheme⟩ requests)).outputs o.source)
    (hgone : (o.index, out) ∉ (Unspent.index
      (storeAfter ⟨d, reward, Secp256k1.scheme⟩ (requests ++ [.accept b]))).outputs o.source) :
    b.ClaimsWithKey o out.lock ∨
      Chain.HasCollision (storeAfter ⟨d, reward, Secp256k1.scheme⟩ (requests ++ [.accept b])) ∨
      ∃ tx, Chain.Includes (storeAfter ⟨d, reward, Secp256k1.scheme⟩ (requests ++ [.accept b])) tx ∧
        tx.id = o.source ∧ 2 ^ 32 < tx.outputs.length := by
  obtain ⟨c, h⟩ := exists_grounded ⟨d, reward, Secp256k1.scheme⟩ hkinds hfits.init
  obtain ⟨bs, ha⟩ := h.sound.contents.exists_active
  obtain ⟨flag, hflag, hiff⟩ := Ledger.extendsTip_eq h.sound.holds b
  obtain rfl := Except.ok.inj (hflag.symm.trans hext)
  have hcount := hfits.count
  rw [Request.totalOutputCount_snoc] at hcount
  obtain ⟨c', h'⟩ := h.perform (r := .accept b) trivial hfits.last hcount
  rw [storeAfter, Session.run_snoc] at hgone ⊢
  rw [storeAfter, Unspent.index_eq h.sound.holds] at hlisted
  rw [Unspent.index_eq h'.sound.holds] at hgone
  rcases h.sound.accepted ha hfits.last hcount h'.sound with
    rfl | ⟨_, hadmits, hsigned, _, hplace⟩
  · exact absurd hlisted hgone
  cases hplace with
  | beside _ _ _ => exact absurd hlisted hgone
  | switch _ _ hnot _ => exact absurd (hiff.mp rfl) hnot
  | onTip hnew _ _ hm =>
      have hstored := h.sound.contents.stored_withBlock hnew ha
      have hknown := h'.known hstored
      have hverified : ∀ tx ∈ b.transactions, tx.isCoinbase = false →
          ∃ refs, Chain.FoundOn bs refs ∧ tx.verifies Secp256k1.scheme refs = true := by
        intro tx htx hspends
        obtain ⟨refs, hfound, hverifies⟩ := hsigned tx htx hspends
        rw [h.rules_eq] at hverifies
        exact ⟨refs, hfound, hverifies⟩
      rcases (h.traced bs ha).claimed hm (fun tx htx => (hknown tx htx).2.1)
        (fun tx htx => (hknown tx htx).2.2) hverified hlisted hgone with
        hclaims | ⟨tx, htx, tx', htx', hcollision⟩ | ⟨tx, htx, hid, hmany⟩
      · exact Or.inl hclaims
      · exact Or.inr (Or.inl ⟨tx, tx', (hknown tx htx).1, (hknown tx' htx').1, hcollision⟩)
      · exact Or.inr (Or.inr ⟨tx, (hknown tx htx).1, hid, hmany⟩)

/-- The reward of the root leaves the index with the payment on the longer branch. -/
theorem fork_reward_spent_by_owner :
    Fork.longer.ClaimsWithKey ⟨Fork.reward.id, 0⟩ Fork.alice ∨
      Chain.HasCollision (storeAfter Fork.rules [.accept Fork.root, .accept Fork.longer]) ∨
      ∃ tx, Chain.Includes (storeAfter Fork.rules [.accept Fork.root, .accept Fork.longer]) tx ∧
        tx.id = Fork.reward.id ∧ 2 ^ 32 < tx.outputs.length := by
  have hkinds : ∀ r ∈ [Request.accept Fork.root], r.BeginsOrAccepts := by
    intro r hr
    rw [List.mem_singleton.mp hr]
    trivial
  have hfits : RunFits [.accept Fork.root, .accept Fork.longer] := by decide
  have hext :
      Ledger.extendsTip (storeAfter Fork.rules [.accept Fork.root]) Fork.longer = .ok true :=
    by decide +kernel
  have hlisted : (0, ⟨100, Fork.alice⟩) ∈
      (Unspent.index (storeAfter Fork.rules [.accept Fork.root])).outputs Fork.reward.id := by
    decide +kernel
  have hgone : (0, ⟨100, Fork.alice⟩) ∉ (Unspent.index
      (storeAfter Fork.rules [.accept Fork.root, .accept Fork.longer])).outputs Fork.reward.id := by
    decide +kernel
  exact spent_by_owner Fork.rules.difficulty Fork.rules.reward [.accept Fork.root] Fork.longer
    ⟨Fork.reward.id, 0⟩ ⟨100, Fork.alice⟩ hkinds hfits hext hlisted hgone

end Session

end CoinLedger
