import CoinLedger.Proofs.MerkleTree
import CoinLedger.Proofs.Runs

/-!
# What the hash of a block commits to

The hash of a sealed block is that of its parent, the Merkle root of its transactions,
the nonce and the difficulty, laid out in fields of fixed width. So blocks of one hash
agree in all of these, or strings that are hashed for them collide; and their lists of
transactions agree as far as a Merkle root tells lists apart, which is up to the
repetitions that the pairing of nodes makes. Blocks that obey the rules begin with a
coinbase, whose encoding is longer than two digests; so their trees have one height.

The main statement is `Block.hash_commits`. A block with three transactions and the same
block with the last one repeated show that more does not hold.
-/

namespace CoinLedger

/-! ## Layouts -/

theorem Bytes.bigEndian_injective {width n m : Nat} (hn : n < 1 <<< (8 * width))
    (hm : m < 1 <<< (8 * width)) (h : bigEndian width n = bigEndian width m) : n = m := by
  rw [← ofBigEndian_bigEndian hn, h, ofBigEndian_bigEndian hm]

/-- The fields of what a seal is the hash of have fixed places. -/
theorem Difficulty.sealingInput_injective (d : Difficulty) {parent parent' root root' : Digest}
    {nonce nonce' : UInt64}
    (h : d.sealingInput parent root nonce = d.sealingInput parent' root' nonce') :
    parent = parent' ∧ root = root' ∧ nonce = nonce' := by
  rw [sealingInput, sealingInput, List.append_left_inj] at h
  obtain ⟨hdigests, hnonce⟩ := List.append_inj' h (by simp)
  obtain ⟨hparent, hroot⟩ := List.append_inj hdigests (by rw [parent.length_eq, parent'.length_eq])
  refine ⟨Digest.ext hparent, Digest.ext hroot, UInt64.toNat_inj.mp ?_⟩
  exact Bytes.bigEndian_injective nonce.toNat_lt nonce'.toNat_lt hnonce

/-- Lists of records that fit do not share their encodings. -/
theorem Record.map_encode_injective {α : Type} [Record α] [LawfulRecord α] {xs ys : List α}
    (hx : ∀ a ∈ xs, LawfulRecord.Fits a) (hy : ∀ a ∈ ys, LawfulRecord.Fits a)
    (h : xs.map encode = ys.map encode) : xs = ys := by
  induction xs generalizing ys with
  | nil =>
      rw [List.map_nil, eq_comm, List.map_eq_nil_iff] at h
      exact h.symm
  | cons x xs ih =>
      cases ys with
      | nil => cases h
      | cons y ys =>
          obtain ⟨hhead, htail⟩ := List.cons.inj h
          rw [List.forall_mem_cons] at hx hy
          rw [encode_injective hx.1 hy.1 hhead, ih hx.2 hy.2 htail]

theorem VarInt.length_encode_pos (n : UInt64) : 0 < (encode n).length :=
  List.length_pos_iff.mpr (encode_ne_nil n)

/-- A coinbase is not written down in as few bytes as two digests have. -/
theorem Transaction.length_encode_coinbase {tx : Transaction} (h : tx.isCoinbase = true) :
    64 < (Record.encode tx).length := by
  unfold isCoinbase at h
  split at h
  · rename_i i hinputs
    have hcount := VarInt.length_encode_pos (UInt64.ofNat [i].length)
    have hsignature := VarInt.length_encode_pos (UInt64.ofNat i.signature.length)
    have hkey := VarInt.length_encode_pos (UInt64.ofNat i.key.length)
    simp only [Record.encode, hinputs, Record.encodeList, Record.encodeBytes, VarInt.ofLength,
      List.flatMap_cons, List.flatMap_nil, List.length_append, Bytes.length_littleEndian,
      tx.id.length_eq, i.source.length_eq]
    omega
  · cases h

namespace Block

variable {d : Difficulty} {r : Rules} {b b' : Block}

/-! ## Blocks of one hash -/

/-- The strings that are hashed when the seal of a block is computed: the encodings of
its transactions, the pairs of nodes above them, and what the seal is the hash of. -/
def hashedStrings (d : Difficulty) (b : Block) : List Bytes :=
  Merkle.hashed (b.transactions.map Record.encode) ++
    [d.sealingInput b.parent b.merkleRoot b.nonce]

theorem root_eq_merkleRoot (h : b.transactions ≠ []) :
    Merkle.root (b.transactions.map Record.encode) = some b.merkleRoot := by
  have hne : (b.transactions.map Record.encode).map sha256 ≠ [] := by simpa using h
  have htop := Merkle.reduce_eq_head? hne rfl
  have hleft := Merkle.iterate_parents_ne_nil hne (Merkle.height
    ((b.transactions.map Record.encode).map sha256))
  rw [merkleRoot]
  cases hroot : Merkle.root (b.transactions.map Record.encode) with
  | none =>
      rw [Merkle.root, htop, List.head?_eq_none_iff] at hroot
      exact absurd hroot hleft
  | some root => rfl

/-- What a block that obeys the rules has for its leaves. -/
theorem leaves_of_admits (h : r.Admits b) : b.transactions ≠ [] ∧
    ∀ x, (b.transactions.map Record.encode).head? = some x → x.length ≠ 64 := by
  obtain ⟨first, others, htxs, hfirst, _, _⟩ := h.coinbase
  rw [htxs]
  refine ⟨List.cons_ne_nil _ _, fun x hx => ?_⟩
  rw [List.map_cons, List.head?_cons] at hx
  obtain rfl := Option.some.inj hx
  exact Nat.ne_of_gt (Transaction.length_encode_coinbase hfirst)

/-- Lists of transactions with one Merkle root are completed to one list. -/
theorem fill_eq_or_collidesAmong (hfits : b.Fits) (hfits' : b'.Fits) (h : r.Admits b)
    (h' : r.Admits b') (hroot : b.merkleRoot = b'.merkleRoot) :
    Merkle.fill b.transactions = Merkle.fill b'.transactions ∨
      CollidesAmong (hashedStrings d b ++ hashedStrings d b') := by
  obtain ⟨hne, hfirst⟩ := leaves_of_admits h
  obtain ⟨hne', hfirst'⟩ := leaves_of_admits h'
  have hroots : Merkle.root (b.transactions.map Record.encode) =
      Merkle.root (b'.transactions.map Record.encode) := by
    rw [root_eq_merkleRoot hne, root_eq_merkleRoot hne', hroot]
  rcases Merkle.fill_eq_or_collision (by simpa using hne) (by simpa using hne') hfirst hfirst'
    hroots with hfill | hcollides
  · left
    rw [Merkle.fill_map, Merkle.fill_map] at hfill
    refine Record.map_encode_injective (fun tx htx => ?_) (fun tx htx => ?_) hfill
    · exact hfits.transactions tx (Merkle.fillTo_subset _ _ htx)
    · exact hfits'.transactions tx (Merkle.fillTo_subset _ _ htx)
  · exact Or.inr (hcollides.append (List.subset_append_left _ _) (List.subset_append_left _ _))

/-- The other way round, nothing but the completed list goes into a Merkle root; so no
more of the transactions than this can be told from the hash of a block. -/
theorem merkleRoot_congr (h : Merkle.fill b.transactions = Merkle.fill b'.transactions) :
    b.merkleRoot = b'.merkleRoot := by
  rw [merkleRoot, merkleRoot, ← Merkle.root_fill, Merkle.fill_map, h, ← Merkle.fill_map,
    Merkle.root_fill]

/-- Two blocks that pass the rules and have one hash are on one parent, have one nonce,
and have lists of transactions that the Merkle tree completes to one list, of which one
begins with the other; or two different strings with one SHA-256 are among those that
are hashed for the seals of the two. -/
theorem hash_commits (r : Rules) (b b' : Block) (hfits : b.Fits) (hfits' : b'.Fits)
    (h : r.checkBlock b = .ok ()) (h' : r.checkBlock b' = .ok ()) (hhash : b.hash = b'.hash) :
    (b.parent = b'.parent ∧ b.nonce = b'.nonce ∧
      Merkle.fill b.transactions = Merkle.fill b'.transactions ∧
      (b.transactions <+: b'.transactions ∨ b'.transactions <+: b.transactions)) ∨
    CollidesAmong (hashedStrings r.difficulty b ++ hashedStrings r.difficulty b') := by
  rw [Rules.checkBlock_eq_ok_iff] at h h'
  have hsealed := h.isSealed
  have hsealed' := h'.isSealed
  rw [Difficulty.isSealed, Bool.and_eq_true, decide_eq_true_iff] at hsealed hsealed'
  have hseals : sha256 (r.difficulty.sealingInput b.parent b.merkleRoot b.nonce) =
      sha256 (r.difficulty.sealingInput b'.parent b'.merkleRoot b'.nonce) :=
    hsealed.1.trans (hhash.trans hsealed'.1.symm)
  have hmem : r.difficulty.sealingInput b.parent b.merkleRoot b.nonce ∈
      hashedStrings r.difficulty b ++ hashedStrings r.difficulty b' := by
    simp [hashedStrings]
  have hmem' : r.difficulty.sealingInput b'.parent b'.merkleRoot b'.nonce ∈
      hashedStrings r.difficulty b ++ hashedStrings r.difficulty b' := by
    simp [hashedStrings]
  rcases eq_or_collidesAmong hmem hmem' hseals with hinput | hcollides
  · obtain ⟨hparent, hroot, hnonce⟩ := r.difficulty.sealingInput_injective hinput
    refine (fill_eq_or_collidesAmong hfits hfits' h h' hroot).imp_left fun hfill => ?_
    exact ⟨hparent, hnonce, hfill, Merkle.isPrefix_of_fill_eq hfill⟩
  · exact Or.inr hcollides

end Block

/-! ## A repeated transaction -/

namespace Fork

/-- A transaction that spends nothing; rules that look at one block let it pass. -/
def gift (id value : Nat) : Transaction := ⟨Digest.ofNat id, [], [⟨UInt64.ofNat value, bob⟩]⟩

/-- A genesis block with three transactions. -/
def unpadded : Block where
  timestamp := 0
  hash := Digest.ofNat 0x7056b5ee5a69d408c206fbf3cadd002057bd199fed4b0806aad34632b7832341
  transactions :=
    [reward, gift 0xd5d33cfdecbaadb3b1648b2c5118d872708332b92a5ab43914ad8e4fc26ca3eb 1,
      gift 0xebc1a83a50b8148bed80013df7e48cc72f19e830a25742708bc19579571deab6 2]
  parent := Digest.zero
  nonce := 0
  height := 0

/-- The same block with its last transaction once more. -/
def padded : Block :=
  { unpadded with transactions := unpadded.transactions ++
      [gift 0xebc1a83a50b8148bed80013df7e48cc72f19e830a25742708bc19579571deab6 2] }

theorem checkBlock_padded :
    rules.checkBlock unpadded = .ok () ∧ rules.checkBlock padded = .ok () := by
  decide +kernel

theorem nodup_hashedStrings_unpadded :
    ((unpadded.hashedStrings rules.difficulty).map sha256).Nodup := by
  decide +kernel

theorem hashedStrings_padded_subset :
    padded.hashedStrings rules.difficulty ⊆ unpadded.hashedStrings rules.difficulty := by
  decide +kernel

/-- Two lists of transactions under one hash, without any collision. -/
theorem padded_not_committed :
    rules.checkBlock unpadded = .ok () ∧ rules.checkBlock padded = .ok () ∧
      unpadded.hash = padded.hash ∧ unpadded.transactions ≠ padded.transactions ∧
      ¬ CollidesAmong (unpadded.hashedStrings rules.difficulty ++
        padded.hashedStrings rules.difficulty) := by
  refine ⟨checkBlock_padded.1, checkBlock_padded.2, rfl, by decide, ?_⟩
  intro hcollides
  obtain ⟨x, hx, y, hy, hne, hsha⟩ :=
    hcollides.mono (List.append_subset.mpr ⟨List.Subset.refl _, hashedStrings_padded_subset⟩)
  exact hne (List.inj_on_of_nodup_map nodup_hashedStrings_unpadded hx hy hsha)

/-- What the two blocks do agree in. -/
theorem padded_hash_commits :
    (unpadded.parent = padded.parent ∧ unpadded.nonce = padded.nonce ∧
      Merkle.fill unpadded.transactions = Merkle.fill padded.transactions ∧
      (unpadded.transactions <+: padded.transactions ∨
        padded.transactions <+: unpadded.transactions)) ∨
    CollidesAmong (unpadded.hashedStrings rules.difficulty ++
      padded.hashedStrings rules.difficulty) :=
  Block.hash_commits rules unpadded padded (by decide) (by decide) checkBlock_padded.1
    checkBlock_padded.2 rfl

end Fork

end CoinLedger
