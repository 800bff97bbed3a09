import CoinLedger.Block
import CoinLedger.Unspent.Entry
import Mathlib.Algebra.Ring.Nat
import Mathlib.Tactic.SplitIfs

/-!
# Records are read back

A reader `Reads` some bytes as a value when it takes exactly these bytes off the
front of whatever follows them. Sequences of readers read concatenations, so that
every record type follows from its fields.

A value *fits* when each length in it can be written down in 64 bits. The main
statement is `LawfulRecord.reads_encode`: a value that fits is read back from its
encoding, with any bytes behind it left over. `Record.decode_encode` is the case of
nothing behind it, and `Record.encode_injective` the consequence that two values
that fit do not share an encoding.
-/

namespace CoinLedger

/-- The reader takes exactly `bytes` off the front, whatever follows, as `value`. -/
def Reader.Reads {α : Type} (r : Reader α) (bytes : Bytes) (value : α) : Prop :=
  ∀ rest, r (bytes ++ rest) = .ok (value, rest)

namespace Reader

/-! ## Readers in sequence -/

section

variable {α β : Type} {r : Reader α} {f : α → Reader β} {data : Bytes}

/-- The second of two readers goes on where the first one stopped. -/
theorem bind_of_ok {p : α × Bytes} (h : r data = .ok p) : (r >>= f) data = f p.1 p.2 := by
  show (r data >>= fun p => f p.1 p.2) = _
  rw [h]
  rfl

theorem bind_of_error {e : CodecError} (h : r data = .error e) : (r >>= f) data = .error e := by
  show (r data >>= fun p => f p.1 p.2) = _
  rw [h]
  rfl

end

theorem reads_pure {α : Type} (value : α) : Reads (pure value) [] value :=
  fun _ => rfl

theorem Reads.bind {α β : Type} {r : Reader α} {f : α → Reader β} {x y : Bytes} {a : α} {b : β}
    (hr : Reads r x a) (hf : Reads (f a) y b) : Reads (r >>= f) (x ++ y) b := by
  intro rest
  rw [List.append_assoc, bind_of_ok (hr (y ++ rest))]
  exact hf rest

/-- The last reader of a sequence, with nothing to read behind it. -/
theorem Reads.map {α β : Type} {r : Reader α} {g : α → β} {x : Bytes} {a : α}
    (hr : Reads r x a) : Reads (do return g (← r)) x (g a) := by
  have h := hr.bind (f := fun a => pure (g a)) (reads_pure (g a))
  rwa [List.append_nil] at h

theorem reads_take {count : Nat} {bytes : Bytes} (h : bytes.length = count) :
    Reads (take count) bytes bytes := by
  subst h
  intro rest
  simp [take]

theorem reads_digest (d : Digest) : Reads digest d.bytes d := by
  intro rest
  have hlen := d.length_eq
  have hle : 32 ≤ (d.bytes ++ rest).length := by simp [hlen]
  have htake : (d.bytes ++ rest).take 32 = d.bytes := by
    rw [← hlen, List.take_left]
  have hdrop : (d.bytes ++ rest).drop 32 = rest := by
    rw [← hlen, List.drop_left]
  rw [digest, dif_pos hle]
  simp only [htake, hdrop]

theorem reads_number {w n : Nat} (h : n < 256 ^ w) :
    Reads (number w) (Bytes.littleEndian w n) n := by
  have hbits : n < 1 <<< (8 * w) := by
    rw [Nat.one_shiftLeft, Nat.pow_mul]
    exact h
  have hread := (reads_take (Bytes.length_littleEndian w n)).map (g := Bytes.ofLittleEndian)
  rw [Bytes.ofLittleEndian_littleEndian hbits] at hread
  exact hread

/-- Items that are each read back are read back one behind the other. -/
theorem reads_times {α : Type} {item : Reader α} {f : α → Bytes} {items : List α}
    (h : ∀ a ∈ items, Reads item (f a) a) :
    Reads (times items.length item) (items.flatMap f) items := by
  induction items with
  | nil => exact reads_pure []
  | cons a rest ih =>
      have hrest := ih fun b hb => h b (List.mem_cons_of_mem _ hb)
      rw [List.flatMap_cons]
      exact (h a List.mem_cons_self).bind hrest.map

end Reader

/-! ## Variable-length integers and lengths -/

namespace VarInt

open Reader

/-- A marker byte, then as many bytes as it announces. -/
theorem reads_marked {marker : UInt8} {width : Nat} {n : UInt64}
    (hwidth : markedWidth? marker = some width) (hn : n.toNat < 256 ^ width) :
    Reads read (marker :: Bytes.littleEndian width n.toNat) n := by
  have hmarker : Reads (number 1) [marker] marker.toNat := by
    have h := reads_number (w := 1) (n := marker.toNat) (by simpa using marker.toNat_lt)
    simpa [Bytes.littleEndian] using h
  refine hmarker.bind (x := [marker]) ?_
  rw [UInt8.ofNat_toNat, hwidth]
  have h := (reads_number hn).map (g := UInt64.ofNat)
  rwa [UInt64.ofNat_toNat] at h

/-- A number below the markers is its own byte. -/
theorem reads_short {n : UInt64} (hn : n.toNat < 0xfd) : Reads read [n.toUInt8] n := by
  have hbyte : UInt8.ofNat n.toNat = n.toUInt8 := by
    rw [← UInt8.toNat_inj, UInt8.toNat_ofNat', UInt64.toNat_toUInt8]
  have hval : (UInt8.ofNat n.toNat).toNat = n.toNat := by
    rw [UInt8.toNat_ofNat']
    omega
  have hnone : markedWidth? (UInt8.ofNat n.toNat) = none := by
    unfold markedWidth?
    simp only [← UInt8.toNat_inj, hval]
    rw [if_neg, if_neg, if_neg] <;> simp <;> omega
  have hfirst : Reads (number 1) [n.toUInt8] n.toNat := by
    have h := reads_number (w := 1) (n := n.toNat) (by omega)
    rwa [Bytes.littleEndian, Bytes.littleEndian, hbyte] at h
  refine hfirst.bind (x := [n.toUInt8]) (y := []) ?_
  rw [hnone]
  show Reads (pure (UInt64.ofNat n.toNat)) [] n
  rw [UInt64.ofNat_toNat]
  exact reads_pure n

theorem reads_encode (n : UInt64) : Reads read (encode n) n := by
  have hlt := n.toNat_lt
  unfold encode
  split
  · rename_i hn
    exact reads_short (by simpa [UInt64.lt_iff_toNat_lt] using hn)
  · split
    · rename_i hn
      have hn : n.toNat ≤ 0xffff := by simpa [UInt64.le_iff_toNat_le] using hn
      exact reads_marked rfl (by omega)
    · split
      · rename_i hn
        have hn : n.toNat ≤ 0xffffffff := by simpa [UInt64.le_iff_toNat_le] using hn
        exact reads_marked rfl (by omega)
      · exact reads_marked rfl (by omega)

theorem encode_ne_nil (n : UInt64) : encode n ≠ [] := by
  unfold encode
  split_ifs <;> exact List.cons_ne_nil _ _

/-- A length is a number that is checked against what is left. -/
theorem readLength_eq (data : Bytes) : readLength data = read data >>= fun p =>
    if p.2.length < p.1.toNat then .error (.lengthOverflow p.1) else .ok (p.1.toNat, p.2) := by
  unfold readLength
  show read data >>= _ = _
  congr 1
  funext p
  show (if p.2.length < p.1.toNat then _ else _ : Reader Nat) p.2 = _
  split_ifs <;> rfl

theorem readLength_eq_ok_iff {data rest : Bytes} {length : Nat} :
    readLength data = .ok (length, rest) ↔
      ∃ n, read data = .ok (n, rest) ∧ n.toNat ≤ rest.length ∧ n.toNat = length := by
  rw [readLength_eq]
  cases hread : read data with
  | error e => exact ⟨fun h => (nomatch h), fun ⟨_, h, _⟩ => (nomatch h)⟩
  | ok p =>
      show (if p.2.length < p.1.toNat then _ else _ : Except CodecError _) = _ ↔ _
      constructor
      · intro h
        split_ifs at h with hshort
        obtain ⟨rfl, rfl⟩ := Prod.mk.inj (Except.ok.inj h)
        exact ⟨p.1, rfl, Nat.le_of_not_lt hshort, rfl⟩
      · rintro ⟨n, hn, hroom, rfl⟩
        obtain rfl := Except.ok.inj hn
        rw [if_neg (Nat.not_lt.mpr hroom)]

/-- A length is read where what it announces is there to be read. -/
theorem readLength_ofLength {α : Type} {items : List α} {data : Bytes}
    (hfits : items.length < 2 ^ 64) (hdata : items.length ≤ data.length) :
    readLength (ofLength items ++ data) = .ok (items.length, data) := by
  have hnat : (UInt64.ofNat items.length).toNat = items.length := UInt64.toNat_ofNat_of_lt' hfits
  exact readLength_eq_ok_iff.mpr ⟨_, reads_encode _ data, hnat.symm ▸ hdata, hnat⟩

end VarInt

/-! ## Records -/

/-- A record type whose values are read back from their encodings. -/
class LawfulRecord (α : Type) [Record α] where
  /-- Every length in the value can be written down. -/
  Fits : α → Prop
  encode_ne_nil : ∀ a : α, Record.encode a ≠ []
  reads_encode : ∀ {a : α}, Fits a → Reader.Reads Record.read (Record.encode a) a

namespace Record

open Reader

theorem reads_bytes {bytes : Bytes} (h : bytes.length < 2 ^ 64) :
    Reads readBytes (encodeBytes bytes) bytes := by
  intro rest
  show (VarInt.readLength (encodeBytes bytes ++ rest) >>= fun p => take p.1 p.2) = _
  rw [encodeBytes, List.append_assoc, VarInt.readLength_ofLength h (by simp)]
  exact reads_take rfl rest

/-- A count and the items, where no item is written with no bytes at all: the bytes
left are at least as many as the items. -/
theorem reads_counted {α : Type} {item : Reader α} {f : α → Bytes} {items : List α}
    (hlen : items.length < 2 ^ 64) (hne : ∀ a, f a ≠ [])
    (h : ∀ a ∈ items, Reads item (f a) a) :
    Reads (do times (← VarInt.readLength) item)
      (VarInt.ofLength items ++ items.flatMap f) items := by
  intro rest
  have hroom : items.length ≤ (items.flatMap f).length := by
    clear h hlen
    induction items with
    | nil => simp
    | cons a rest ih =>
        have hpos := List.length_pos_iff.mpr (hne a)
        simp only [List.flatMap_cons, List.length_cons, List.length_append]
        omega
  show (VarInt.readLength _ >>= fun p => times p.1 item p.2) = _
  rw [List.append_assoc, VarInt.readLength_ofLength hlen (by rw [List.length_append]; omega)]
  exact reads_times h rest

variable {α : Type} [Record α] [LawfulRecord α]

theorem reads_list {items : List α} (hlen : items.length < 2 ^ 64)
    (hfits : ∀ a ∈ items, LawfulRecord.Fits a) : Reads readList (encodeList items) items :=
  reads_counted hlen LawfulRecord.encode_ne_nil fun a ha => LawfulRecord.reads_encode (hfits a ha)

/-- A value that fits is the whole of its encoding. -/
theorem decode_encode {value : α} (h : LawfulRecord.Fits value) :
    decode (encode value) = .ok value := by
  have hread := LawfulRecord.reads_encode h []
  rw [List.append_nil] at hread
  rw [decode, hread]

theorem encode_injective {a b : α} (ha : LawfulRecord.Fits a) (hb : LawfulRecord.Fits b)
    (h : encode a = encode b) : a = b := by
  have hdecode := decode_encode ha
  rw [h, decode_encode hb] at hdecode
  exact (Except.ok.inj hdecode).symm

end Record

/-! ## The record types of the ledger -/

open Reader

def Input.Fits (i : Input) : Prop := i.signature.length < 2 ^ 64 ∧ i.key.length < 2 ^ 64

instance (i : Input) : Decidable i.Fits := inferInstanceAs (Decidable (_ ∧ _))

instance : LawfulRecord Input where
  Fits := Input.Fits
  encode_ne_nil i := by
    intro h
    have := congrArg List.length h
    simp [Record.encode, i.source.length_eq] at this
  reads_encode := by
    intro i h
    have hindex := reads_number (w := 4) i.index.toUInt32.toNat_lt
    show Reads _ (i.source.bytes ++ _ ++ _ ++ _) i
    simp only [List.append_assoc]
    refine (reads_digest i.source).bind (hindex.bind ((Record.reads_bytes h.1).bind ?_))
    have hlast := (Record.reads_bytes h.2).map
      (g := Input.mk i.source (UInt32.ofNat i.index.toUInt32.toNat).toInt32 i.signature)
    simpa using hlast

def Output.Fits (o : Output) : Prop := o.lock.length < 2 ^ 64

instance (o : Output) : Decidable o.Fits := inferInstanceAs (Decidable (_ < _))

instance : LawfulRecord Output where
  Fits := Output.Fits
  encode_ne_nil o := by
    intro h
    have := congrArg List.length h
    simp [Record.encode] at this
  reads_encode := by
    intro o h
    refine (reads_number (w := 8) o.value.toNat_lt).bind ?_
    have hlast := (Record.reads_bytes (show o.lock.length < 2 ^ 64 from h)).map
      (g := Output.mk (UInt64.ofNat o.value.toNat))
    simpa using hlast

structure Transaction.Fits (tx : Transaction) : Prop where
  inputs_length : tx.inputs.length < 2 ^ 64
  inputs : ∀ i ∈ tx.inputs, i.Fits
  outputs_length : tx.outputs.length < 2 ^ 64
  outputs : ∀ o ∈ tx.outputs, o.Fits

instance (tx : Transaction) : Decidable tx.Fits :=
  decidable_of_iff (tx.inputs.length < 2 ^ 64 ∧ (∀ i ∈ tx.inputs, i.Fits) ∧
      tx.outputs.length < 2 ^ 64 ∧ ∀ o ∈ tx.outputs, o.Fits)
    ⟨fun ⟨h₁, h₂, h₃, h₄⟩ => ⟨h₁, h₂, h₃, h₄⟩, fun ⟨h₁, h₂, h₃, h₄⟩ => ⟨h₁, h₂, h₃, h₄⟩⟩

instance : LawfulRecord Transaction where
  Fits := Transaction.Fits
  encode_ne_nil tx := by
    intro h
    have := congrArg List.length h
    simp [Record.encode, tx.id.length_eq] at this
  reads_encode := by
    intro tx h
    show Reads _ (tx.id.bytes ++ _ ++ _) tx
    rw [List.append_assoc]
    exact (reads_digest tx.id).bind ((Record.reads_list h.inputs_length h.inputs).bind
      ((Record.reads_list h.outputs_length h.outputs).map (g := Transaction.mk tx.id tx.inputs)))

structure Block.Fits (b : Block) : Prop where
  transactions_length : b.transactions.length < 2 ^ 64
  transactions : ∀ tx ∈ b.transactions, tx.Fits

instance (b : Block) : Decidable b.Fits :=
  decidable_of_iff (b.transactions.length < 2 ^ 64 ∧ ∀ tx ∈ b.transactions, tx.Fits)
    ⟨fun ⟨h₁, h₂⟩ => ⟨h₁, h₂⟩, fun ⟨h₁, h₂⟩ => ⟨h₁, h₂⟩⟩

instance : LawfulRecord Block where
  Fits := Block.Fits
  encode_ne_nil b := by
    intro h
    have := congrArg List.length h
    simp [Record.encode] at this
  reads_encode := by
    intro b h
    have htime := reads_number (w := 8) b.timestamp.toUInt64.toNat_lt
    have hnonce := reads_number (w := 8) b.nonce.toNat_lt
    have hheight := reads_number (w := 8) b.height.toNat_lt
    show Reads _ (_ ++ b.hash.bytes ++ b.parent.bytes ++ _ ++ _ ++ _) b
    simp only [List.append_assoc]
    refine htime.bind ((reads_digest b.hash).bind ((reads_digest b.parent).bind
      (hnonce.bind (hheight.bind ?_))))
    have hlast := (Record.reads_list h.transactions_length h.transactions).map
      (g := fun txs => Block.mk (UInt64.ofNat b.timestamp.toUInt64.toNat).toInt64 b.hash txs
        b.parent (UInt64.ofNat b.nonce.toNat) (UInt64.ofNat b.height.toNat))
    simpa using hlast

structure Entry.Fits (e : Entry) : Prop where
  outputs_length : e.outputs.length < 2 ^ 64
  outputs : ∀ p ∈ e.outputs, p.2.Fits

/-- A place is written in 64 bits and read back as its low-order 32. -/
theorem Entry.reads_item {p : UInt32 × Output} (h : p.2.Fits) :
    Reads (do
      let place ← VarInt.read
      let o ← Record.read
      return (place.toUInt32, o)) (VarInt.encode p.1.toUInt64 ++ Record.encode p.2) p := by
  refine (VarInt.reads_encode p.1.toUInt64).bind ?_
  have hlast := (LawfulRecord.reads_encode (a := p.2) h).map
    (g := Prod.mk p.1.toUInt64.toUInt32)
  simpa using hlast

instance : LawfulRecord Entry where
  Fits := Entry.Fits
  encode_ne_nil e := by
    intro h
    exact VarInt.encode_ne_nil _ (List.append_eq_nil_iff.mp h).1
  reads_encode := by
    intro e h
    have hitems := Record.reads_counted h.outputs_length
      (f := fun p : UInt32 × Output => VarInt.encode p.1.toUInt64 ++ Record.encode p.2)
      (fun p hp => VarInt.encode_ne_nil _ (List.append_eq_nil_iff.mp hp).1)
      (fun p hp => Entry.reads_item (h.outputs p hp))
    have hentry := hitems.map (g := Entry.mk)
    rw [bind_assoc] at hentry
    exact hentry

/-! ## The round trip over the whole format -/

namespace Record

variable {α : Type} [Record α]

/-- The value is read back from its encoding in any context: its reader stops where the
encoding ends, the encoding alone decodes as the value, and with bytes behind it is
refused with their number. -/
structure ReadsBack (value : α) : Prop where
  read : ∀ rest, Record.read (encode value ++ rest) = .ok (value, rest)
  decode : decode (encode value) = .ok value
  trailing : ∀ rest, rest ≠ [] →
    (Record.decode (encode value ++ rest) : Except CodecError α) =
      .error (.trailingBytes rest.length)

theorem readsBack_of_fits [LawfulRecord α] {value : α} (h : LawfulRecord.Fits value) :
    ReadsBack value where
  read := LawfulRecord.reads_encode h
  decode := decode_encode h
  trailing rest hrest := by
    cases rest with
    | nil => exact absurd rfl hrest
    | cons b rest => rw [Record.decode, LawfulRecord.reads_encode h]

/-- Every value of every record type of the ledger that fits is read back from its
encoding. -/
theorem readsBack : (∀ i : Input, i.Fits → ReadsBack i) ∧ (∀ o : Output, o.Fits → ReadsBack o) ∧
    (∀ e : Entry, e.Fits → ReadsBack e) ∧ (∀ tx : Transaction, tx.Fits → ReadsBack tx) ∧
    ∀ b : Block, b.Fits → ReadsBack b :=
  ⟨fun _ => readsBack_of_fits (α := Input), fun _ => readsBack_of_fits (α := Output),
    fun _ => readsBack_of_fits (α := Entry), fun _ => readsBack_of_fits (α := Transaction),
    fun _ => readsBack_of_fits (α := Block)⟩

/-- A transaction with three bytes behind it. -/
theorem readsBack_coinbase :
    ReadsBack (Transaction.mk Digest.zero [Input.coinbase [1, 2]] [⟨100, [7]⟩]) ∧
      (decode (encode (Transaction.mk Digest.zero [Input.coinbase [1, 2]] [⟨100, [7]⟩]) ++
        [1, 2, 3]) : Except CodecError Transaction) = .error (.trailingBytes 3) :=
  have h := readsBack.2.2.2.1 (.mk Digest.zero [Input.coinbase [1, 2]] [⟨100, [7]⟩]) (by decide)
  ⟨h, h.trailing [1, 2, 3] (List.cons_ne_nil _ _)⟩

end Record

end CoinLedger
