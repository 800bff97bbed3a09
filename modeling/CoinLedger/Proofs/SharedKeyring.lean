import CoinLedger.Command.Run
import CoinLedger.Proofs.Keyrings
import CoinLedger.Signature.Ecdsa
import Mathlib.Data.List.Induction

/-!
# A keyring file with several handlers

A handler reads the keyring file when it is opened, and from then on works on its own copy:
for a new wallet it adds a key to the copy and writes the whole copy back. `SharedKeyring`
is a node with the handlers that have been opened on it, whose steps come in any order.

A copy grows stale as soon as another handler writes, and the next wallet that its handler
makes takes the other's key out of the file: this is what `Rivals.not_keeps_rivals`
shows. `SharedKeyring.keeps_iff` says that nothing else loses a key: all keys whose addresses
have been given out stay in the file, all the time, exactly if every new wallet is an addition
to the file as it stands, under an address that no other key has been given out with.
-/

namespace CoinLedger

/-- What a handler starts from: the settings are looked at, and the keyring file is read. -/
def Node.openKeyring (S : SignatureScheme) (n : Node) : Result Keyring := do
  discard n.settings.check
  Keyring.load S n.keyringFile

/-- The command to make a wallet opens a handler and makes one wallet with it. -/
theorem Node.run_createWallet (S : SignatureScheme) (n : Node) (world : Surroundings) :
    n.run S world .createWallet =
      match n.openKeyring S with
      | .error e => n.refuse e
      | .ok keyring => n.createWallet S world keyring := rfl

/-- A node with the handlers that have been opened on it. -/
structure SharedKeyring where
  node : Node
  /-- The keyrings of the handlers, in the order of their opening. -/
  handlers : List Keyring
  /-- The keys whose addresses have been given out, as answers to new wallets, in this order. -/
  issued : List SecretKey

namespace SharedKeyring

inductive Event
  /-- A handler is opened on the node. -/
  | opening
  /-- The handler with some number makes a wallet. -/
  | createWallet (number : Nat) (world : Surroundings)

/-- Lets an event happen; a handler that cannot be opened comes to nothing. -/
def perform (S : SignatureScheme) (w : SharedKeyring) : Event → SharedKeyring
  | .opening =>
    match w.node.openKeyring S with
    | .error _ => w
    | .ok keyring => { w with handlers := w.handlers ++ [keyring] }
  | .createWallet number world =>
    match w.handlers[number]? with
    | none => w
    | some keyring =>
      { node := (w.node.createWallet S world keyring).2
        handlers := w.handlers.set number (keyring.insert S world.freshKey)
        issued := w.issued ++ [world.freshKey] }

/-- A node on which no handler has been opened. -/
def start (n : Node) : SharedKeyring := ⟨n, [], []⟩

def run (S : SignatureScheme) (w : SharedKeyring) (events : List Event) : SharedKeyring :=
  events.foldl (perform S) w

/-- Every address that has been given out is in the keyring file, with its key. -/
def Keeps (S : SignatureScheme) (w : SharedKeyring) : Prop :=
  ∀ key ∈ w.issued, ∃ r, Keyring.load S w.node.keyringFile = .ok r ∧
    r.key (S.addressOf key) = .ok key

/-- What the handler would write is the file with the new key added to it, and no other key
has been given out with this address. -/
def Adds (S : SignatureScheme) (w : SharedKeyring) (number : Nat) (key : SecretKey) : Prop :=
  ∀ keyring, w.handlers[number]? = some keyring →
    (∃ r, Keyring.load S w.node.keyringFile = .ok r ∧ keyring.insert S key = r.insert S key) ∧
    ∀ other ∈ w.issued, S.addressOf other = S.addressOf key → other = key

variable {S : SignatureScheme} {n : Node} {w : SharedKeyring}

theorem run_snoc (w : SharedKeyring) (events : List Event) (e : Event) :
    w.run S (events ++ [e]) = (w.run S events).perform S e :=
  List.foldl_concat ..

theorem perform_createWallet {number : Nat} {keyring : Keyring} (world : Surroundings)
    (h : w.handlers[number]? = some keyring) :
    w.perform S (.createWallet number world) =
      { node := (w.node.createWallet S world keyring).2
        handlers := w.handlers.set number (keyring.insert S world.freshKey)
        issued := w.issued ++ [world.freshKey] } := by
  simp only [perform, h]

/-! ## Where keys come from -/

/-- A keyring of the node: nothing that was there at first has lost its address, and what is
in it was there at first or has been given out. -/
structure Descends (S : SignatureScheme) (first : Keyring) (issued : List SecretKey)
    (r : Keyring) : Prop where
  wellKeyed : r.WellKeyed S
  covers : ∀ key, first.Has S key → ∃ key', r.Has S key' ∧ S.addressOf key' = S.addressOf key
  origin : ∀ key, r.Has S key → first.Has S key ∨ key ∈ issued

theorem Descends.refl {first : Keyring} (h : first.WellKeyed S) (issued : List SecretKey) :
    Descends S first issued first :=
  ⟨h, fun key hkey => ⟨key, hkey, rfl⟩, fun _ hkey => .inl hkey⟩

theorem Descends.mono {first r : Keyring} {issued : List SecretKey}
    (h : Descends S first issued r) (key : SecretKey) : Descends S first (issued ++ [key]) r :=
  ⟨h.wellKeyed, h.covers, fun k hk => (h.origin k hk).imp_right (List.mem_append_left _)⟩

theorem Descends.insert {first r : Keyring} {issued : List SecretKey}
    (h : Descends S first issued r) (added : SecretKey) :
    Descends S first (issued ++ [added]) (r.insert S added) where
  wellKeyed := h.wellKeyed.insert added
  covers key hkey := by
    obtain ⟨key', hkey', haddress⟩ := h.covers key hkey
    by_cases hsame : S.addressOf key' = S.addressOf added
    · exact ⟨added, Keyring.has_insert.mpr (.inl rfl), hsame.symm.trans haddress⟩
    · exact ⟨key', Keyring.has_insert.mpr (.inr ⟨hsame, hkey'⟩), haddress⟩
  origin key hkey := by
    rcases Keyring.has_insert.mp hkey with rfl | ⟨_, hkey⟩
    · exact .inr (List.mem_append_right _ List.mem_cons_self)
    · exact (h.origin key hkey).imp_right (List.mem_append_left _)

/-- Two keyrings have the same key under an address, if both have all keys that have been
given out with it. -/
theorem Descends.has_of_has {first r r' : Keyring} {issued : List SecretKey}
    (h : Descends S first issued r) (h' : Descends S first issued r') {key : SecretKey}
    (hr : ∀ k ∈ issued, S.addressOf k = S.addressOf key → r.Has S k ∧ r'.Has S k)
    (hkey : r.Has S key) : r'.Has S key := by
  rcases h.origin key hkey with hfirst | hissued
  · obtain ⟨key', hkey', haddress⟩ := h'.covers key hfirst
    rcases h'.origin key' hkey' with hfirst' | hissued'
    · rwa [← hfirst'.eq_of_address hfirst haddress]
    · rwa [← (hr key' hissued' haddress).1.eq_of_address hkey haddress]
  · exact (hr key hissued rfl).2

/-- If writing a copy back takes nothing out of the file that has been given out, it adds to
the file. -/
theorem Descends.insert_eq {first copy file : Keyring} {issued : List SecretKey}
    {added : SecretKey} (hcopy : Descends S first issued copy)
    (hfile : Descends S first issued file) (hkeeps : ∀ key ∈ issued, file.Has S key)
    (hkept : ∀ key ∈ issued, (copy.insert S added).Has S key) :
    copy.insert S added = file.insert S added := by
  refine (hcopy.wellKeyed.insert added).ext (hfile.wellKeyed.insert added) fun key => ?_
  rw [Keyring.has_insert, Keyring.has_insert]
  refine or_congr_right (and_congr_right fun hne => ?_)
  have hboth : ∀ k ∈ issued, S.addressOf k = S.addressOf key → copy.Has S k ∧ file.Has S k := by
    intro k hk haddress
    refine ⟨?_, hkeeps k hk⟩
    rcases Keyring.has_insert.mp (hkept k hk) with rfl | ⟨_, hhas⟩
    · exact absurd haddress.symm hne
    · exact hhas
  exact ⟨hcopy.has_of_has hfile hboth,
    hfile.has_of_has hcopy fun k hk haddress => (hboth k hk haddress).symm⟩

/-- All keyrings of the node, in the file and with the handlers. -/
structure Sound (S : SignatureScheme) (first : Keyring) (w : SharedKeyring) : Prop where
  file : ∃ r, Keyring.load S w.node.keyringFile = .ok r ∧ Descends S first w.issued r
  handlers : ∀ r ∈ w.handlers, Descends S first w.issued r

theorem sound_start {first : Keyring} (h : Keyring.load S n.keyringFile = .ok first) :
    Sound S first (start n) :=
  ⟨⟨first, h, .refl (Keyring.wellKeyed_of_load h) []⟩, fun _ hr => (nomatch hr)⟩

/-- What a handler writes is what the file then holds. -/
theorem load_createWallet {keyring : Keyring} (h : keyring.WellKeyed S) (n : Node)
    (world : Surroundings) :
    Keyring.load S (n.createWallet S world keyring).2.keyringFile =
      .ok (keyring.insert S world.freshKey) :=
  (h.insert world.freshKey).load_render

theorem load_of_openKeyring {r : Keyring} (h : n.openKeyring S = .ok r) :
    Keyring.load S n.keyringFile = .ok r := by
  unfold Node.openKeyring at h
  cases hcheck : n.settings.check with
  | error e =>
      rw [hcheck] at h
      cases h
  | ok _ =>
      rw [hcheck] at h
      exact h

theorem Sound.perform {first : Keyring} (h : Sound S first w) (e : Event) :
    Sound S first (w.perform S e) := by
  obtain ⟨r, hr, hdescends⟩ := h.file
  cases e with
  | opening =>
      rw [SharedKeyring.perform]
      split
      · exact h
      · rename_i keyring hopen
        obtain rfl := Except.ok.inj ((load_of_openKeyring hopen).symm.trans hr)
        refine ⟨h.file, fun r' hr' => ?_⟩
        rcases List.mem_append.mp hr' with hr' | hr'
        · exact h.handlers r' hr'
        · obtain rfl := List.mem_singleton.mp hr'
          exact hdescends
  | createWallet number world =>
      cases hkeyring : w.handlers[number]? with
      | none =>
          simp only [SharedKeyring.perform, hkeyring]
          exact h
      | some keyring =>
          rw [perform_createWallet world hkeyring]
          have hcopy := h.handlers keyring (List.mem_of_getElem? hkeyring)
          refine ⟨⟨_, load_createWallet hcopy.wellKeyed _ world, hcopy.insert _⟩, fun r' hr' => ?_⟩
          rcases List.mem_or_eq_of_mem_set hr' with hr' | rfl
          · exact (h.handlers r' hr').mono _
          · exact hcopy.insert _

theorem Sound.run {first : Keyring} (h : Sound S first w) (events : List Event) :
    Sound S first (w.run S events) := by
  induction events using List.reverseRecOn with
  | nil => exact h
  | append_singleton events e ih =>
      rw [run_snoc]
      exact ih.perform e

/-- On a node whose keyring file is unreadable no handler is ever opened. -/
theorem run_of_unreadable {e : LedgerError} (h : Keyring.load S n.keyringFile = .error e)
    (events : List Event) : (start n).run S events = start n := by
  induction events using List.reverseRecOn with
  | nil => rfl
  | append_singleton events event ih =>
      rw [run_snoc, ih]
      cases event with
      | createWallet number world => rfl
      | opening =>
          rw [perform]
          split
          · rfl
          · rename_i keyring hopen
            cases h.symm.trans (load_of_openKeyring hopen)

/-! ## What is kept -/

theorem keeps_iff_has {r : Keyring} (h : Keyring.load S w.node.keyringFile = .ok r) :
    w.Keeps S ↔ ∀ key ∈ w.issued, r.Has S key := by
  refine forall₂_congr fun key _ => ⟨?_, fun hkey => ⟨r, h, hkey⟩⟩
  rintro ⟨r', hr', hkey⟩
  obtain rfl := Except.ok.inj (hr'.symm.trans h)
  exact hkey

/-- One new wallet loses nothing exactly if it is an addition. -/
theorem keeps_createWallet_iff {first : Keyring} (h : Sound S first w) (hkeeps : w.Keeps S)
    (number : Nat) (world : Surroundings) :
    (w.perform S (.createWallet number world)).Keeps S ↔ w.Adds S number world.freshKey := by
  obtain ⟨r, hr, hfile⟩ := h.file
  rw [keeps_iff_has hr] at hkeeps
  cases hkeyring : w.handlers[number]? with
  | none =>
      have hsame : w.perform S (.createWallet number world) = w := by
        simp only [perform, hkeyring]
      rw [hsame, keeps_iff_has hr]
      exact iff_of_true hkeeps fun keyring hsome => (nomatch hkeyring.symm.trans hsome)
  | some keyring =>
      have hcopy := h.handlers keyring (List.mem_of_getElem? hkeyring)
      rw [perform_createWallet world hkeyring,
        keeps_iff_has (load_createWallet hcopy.wellKeyed _ _)]
      generalize world.freshKey = added
      constructor
      · intro hkept keyring' hsome
        obtain rfl := Option.some.inj (hkeyring.symm.trans hsome)
        have hissued : ∀ key ∈ w.issued, (keyring.insert S added).Has S key := fun key hkey =>
          hkept key (List.mem_append_left _ hkey)
        refine ⟨⟨r, hr, hcopy.insert_eq hfile hkeeps hissued⟩, fun other hother haddress => ?_⟩
        rcases Keyring.has_insert.mp (hissued other hother) with rfl | ⟨hne, _⟩
        · rfl
        · exact absurd haddress hne
      · intro hadds key hkey
        obtain ⟨⟨r', hr', heq⟩, hunique⟩ := hadds keyring hkeyring
        obtain rfl := Except.ok.inj (hr.symm.trans hr')
        rw [heq, Keyring.has_insert]
        rcases List.mem_append.mp hkey with hkey | hkey
        · by_cases haddress : S.addressOf key = S.addressOf added
          · exact .inl (hunique key hkey haddress)
          · exact .inr ⟨haddress, hkeeps key hkey⟩
        · exact .inl (List.mem_singleton.mp hkey)

theorem keeps_opening_iff : (w.perform S .opening).Keeps S ↔ w.Keeps S := by
  rw [perform]
  split <;> rfl

/-- In every order of the handlers' steps: all addresses that have been given out are in the
keyring file with their keys, at every moment, exactly if every new wallet is an addition to
the file. -/
theorem keeps_iff (S : SignatureScheme) (n : Node) (events : List Event) :
    (∀ seen, seen <+: events → ((start n).run S seen).Keeps S) ↔
      ∀ seen number world, seen ++ [.createWallet number world] <+: events →
        ((start n).run S seen).Adds S number world.freshKey := by
  cases hfirst : Keyring.load S n.keyringFile with
  | error e =>
      refine iff_of_true (fun seen _ => ?_) fun seen number world _ => ?_
      · rw [run_of_unreadable hfirst]
        exact fun key hkey => (nomatch hkey)
      · rw [run_of_unreadable hfirst]
        exact fun keyring hsome => (nomatch hsome)
  | ok first =>
      have hsound := (sound_start hfirst).run
      constructor
      · intro hkept seen number world hseen
        have hbefore := hkept seen ((List.prefix_append seen _).trans hseen)
        have hafter := hkept _ hseen
        rw [run_snoc] at hafter
        exact (keeps_createWallet_iff (hsound seen) hbefore number world).mp hafter
      · intro hadds seen hseen
        induction seen using List.reverseRecOn with
        | nil => exact fun key hkey => (nomatch hkey)
        | append_singleton seen e ih =>
            have hbefore := ih ((List.prefix_append seen _).trans hseen)
            rw [run_snoc]
            cases e with
            | opening => exact keeps_opening_iff.mpr hbefore
            | createWallet number world =>
                exact (keeps_createWallet_iff (hsound seen) hbefore number world).mpr
                  (hadds seen number world hseen)

/-! ## One handler after another -/

/-- The steps of commands that are carried out one after another: each opens a handler, the
first of which has the given number, and makes one wallet with it. -/
def commands (number : Nat) : List Surroundings → List Event
  | [] => []
  | world :: rest => .opening :: .createWallet number world :: commands (number + 1) rest

theorem perform_opening {r : Keyring} (h : w.node.openKeyring S = .ok r) :
    w.perform S .opening = { w with handlers := w.handlers ++ [r] } := by
  simp only [perform, h]

/-- A handler that has just been opened adds to the file. -/
theorem adds_of_opened {r : Keyring} {key : SecretKey} (h : w.node.openKeyring S = .ok r)
    (hfresh : ∀ other ∈ w.issued, S.addressOf other ≠ S.addressOf key) :
    (w.perform S .opening).Adds S w.handlers.length key := by
  rw [perform_opening h]
  intro keyring hsome
  obtain rfl := Option.some.inj (List.getElem?_concat_length.symm.trans hsome)
  exact ⟨⟨r, load_of_openKeyring h, rfl⟩, fun other hother hsame =>
    absurd hsame (hfresh other hother)⟩

theorem keeps_run_commands {first : Keyring} {worlds : List Surroundings} (h : Sound S first w)
    (hkeeps : w.Keeps S) (hcheck : ∃ d, w.node.settings.check = .ok d)
    (hfresh : ((w.issued ++ worlds.map Surroundings.freshKey).map S.addressOf).Nodup) :
    (w.run S (commands w.handlers.length worlds)).Keeps S := by
  induction worlds generalizing w with
  | nil => exact hkeeps
  | cons world rest ih =>
      obtain ⟨r, hr, _⟩ := h.file
      obtain ⟨d, hd⟩ := hcheck
      have hopen : w.node.openKeyring S = .ok r := by
        rw [Node.openKeyring, hd]
        exact hr
      have hnew : ∀ other ∈ w.issued, S.addressOf other ≠ S.addressOf world.freshKey := by
        rw [List.map_append] at hfresh
        exact fun other hother => (List.nodup_append.mp hfresh).2.2 _ (List.mem_map_of_mem hother)
          _ List.mem_cons_self
      have hmade := (keeps_createWallet_iff (h.perform .opening) (keeps_opening_iff.mpr hkeeps)
        w.handlers.length world).mpr (adds_of_opened hopen hnew)
      have hstep : (w.perform S .opening).perform S (.createWallet w.handlers.length world) =
          { node := (w.node.createWallet S world r).2
            handlers := (w.handlers ++ [r]).set w.handlers.length (r.insert S world.freshKey)
            issued := w.issued ++ [world.freshKey] } := by
        rw [perform_opening hopen]
        exact perform_createWallet world List.getElem?_concat_length
      have hsound := (h.perform .opening).perform (.createWallet w.handlers.length world)
      rw [hstep] at hmade hsound
      have hrest := ih hsound hmade ⟨d, hd⟩ (by simpa using hfresh)
      rw [List.length_set, List.length_append, List.length_singleton, ← hstep] at hrest
      exact hrest

/-- Commands that are carried out one after another lose no key, on a node that can be used
and with keys whose addresses are all different. -/
theorem keeps_commands (hcheck : ∃ d, n.settings.check = .ok d) {first : Keyring}
    (hfile : Keyring.load S n.keyringFile = .ok first) {worlds : List Surroundings}
    (hfresh : (worlds.map fun world => S.addressOf world.freshKey).Nodup) :
    ((start n).run S (commands 0 worlds)).Keeps S := by
  have hkeeps : (start n).Keeps S := fun key hkey => (nomatch hkey)
  refine keeps_run_commands (sound_start hfile) hkeeps hcheck ?_
  rw [start, List.nil_append, List.map_map]
  exact hfresh

/-! ## Two handlers at once -/

namespace Rivals

/-- The key 1. -/
def oneKey : SecretKey := SecretKey.ofEntropy 0

/-- The key 2. -/
def twoKey : SecretKey := SecretKey.ofEntropy 1

theorem addressOf_oneKey_ne :
    Secp256k1.scheme.addressOf oneKey ≠ Secp256k1.scheme.addressOf twoKey := by
  decide +kernel

/-- A node that has nothing yet. -/
def newNode : Node := ⟨Settings.default, Store.empty, none⟩

/-- Both handlers are open before either of them makes a wallet. -/
def steps : List Event :=
  [.opening, .opening, .createWallet 0 ⟨0, oneKey⟩, .createWallet 1 ⟨0, twoKey⟩]

theorem run_steps : (start newNode).run Secp256k1.scheme steps =
    ⟨{ newNode with
        keyringFile := some (Bytes.ofText (Keyring.empty.insert Secp256k1.scheme twoKey).render) },
      [Keyring.empty.insert Secp256k1.scheme oneKey, Keyring.empty.insert Secp256k1.scheme twoKey],
      [oneKey, twoKey]⟩ := rfl

/-- The second handler's wallet takes the first handler's key out of the file. -/
theorem not_keeps_rivals : ¬ ∀ (n : Node) (events : List Event),
    ((start n).run Secp256k1.scheme events).Keeps Secp256k1.scheme := by
  intro h
  have hkeeps := h newNode steps
  rw [run_steps] at hkeeps
  obtain ⟨r, hr, hkey⟩ := hkeeps oneKey List.mem_cons_self
  have hfile := ((Keyring.wellKeyed_empty Secp256k1.scheme).insert twoKey).load_render
  obtain rfl := Except.ok.inj (hr.symm.trans hfile)
  rw [Keyring.key_insert, if_neg addressOf_oneKey_ne] at hkey
  exact Keyring.not_has_empty hkey

end Rivals

end SharedKeyring

end CoinLedger
