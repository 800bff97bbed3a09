import CoinLedger.Json.Grammar
import CoinLedger.Json.Layout
import Mathlib.Data.List.DropRight
import Mathlib.Tactic.SplitIfs

/-!
# Reading JSON that was laid out

A value is printable if its numbers are written as numbers and its texts are readable.
`Json.parse?_render` says that the document of a printable value is read as this value.

A number ends where no further character could belong to it, so what is read depends on the
character that comes next; in a laid-out document this is a comma or the start of a line.
-/

namespace CoinLedger.Json

/-! ## Numbers -/

theorem head_toDigits_ne_zero {n : Nat} (h : 0 < n) :
    ∃ c rest, Nat.toDigits 10 n = c :: rest ∧ c ≠ '0' := by
  induction n using Nat.strongRecOn with
  | ind n ih =>
      rw [Nat.toDigits_eq_if (by decide)]
      split_ifs with hlt
      · exact ⟨_, _, rfl, mt Nat.digitChar_eq_zero.mp (Nat.pos_iff_ne_zero.mp h)⟩
      · obtain ⟨c, rest, hdigits, hc⟩ := ih (n / 10) (by omega) (by omega)
        exact ⟨c, rest ++ [(n % 10).digitChar], by rw [hdigits, List.cons_append], hc⟩

theorem all_isDigit_toDigits (n : Nat) : ∀ c ∈ Nat.toDigits 10 n, c.isDigit = true :=
  fun _ => Nat.isDigit_of_mem_toDigits (by decide) (by decide)

/-- A number in decimal digits is written as a number. -/
theorem isNumber_toDigits (n : Nat) : isNumber (Nat.toDigits 10 n) = true := by
  rcases Nat.eq_zero_or_pos n with rfl | hpos
  · rfl
  have hall := all_isDigit_toDigits n
  obtain ⟨c, rest, hdigits, hc⟩ := head_toDigits_ne_zero hpos
  rw [hdigits] at hall ⊢
  have hsign : c ≠ '-' := by
    rintro rfl
    cases hall '-' List.mem_cons_self
  have hnumber : isNumber (c :: rest) = isMagnitude (c :: rest) := by
    rw [isNumber.eq_def]
    split
    · rename_i h
      cases h
      exact absurd rfl hsign
    · rfl
  rw [hnumber, isMagnitude.eq_def]
  split
  · rename_i h
    cases h
    exact absurd rfl hc
  · rw [List.takeWhile_eq_self_iff.mpr hall, List.dropWhile_eq_nil_iff.mpr hall, isDigits,
      List.all_eq_true.mpr hall]
    rfl

theorem ofDigits?_append (digits : List Char) {d : Nat} (hd : d < 10) :
    Value.ofDigits? (digits ++ [d.digitChar]) = (Value.ofDigits? digits).map (10 * · + d) := by
  have hdigit : d.digitChar.isDigit = true := by simpa [Nat.isDigit_digitChar] using hd
  rw [Value.ofDigits?, List.foldlM_append]
  show (Value.ofDigits? digits >>= _) = _
  cases Value.ofDigits? digits with
  | none => rfl
  | some n => simp [hdigit, Nat.toNat_digitChar_sub_48_of_lt_ten hd]

theorem ofDigits?_toDigits (n : Nat) : Value.ofDigits? (Nat.toDigits 10 n) = some n := by
  induction n using Nat.strongRecOn with
  | ind n ih =>
      rw [Nat.toDigits_eq_if (by decide)]
      split_ifs with hlt
      · rw [← List.nil_append [n.digitChar], ofDigits?_append [] hlt]
        simp [Value.ofDigits?]
      · rw [ofDigits?_append _ (Nat.mod_lt n (by decide)), ih (n / 10) (by omega), Option.map_some,
          Nat.div_add_mod]

theorem natural?_ofNat {n limit : Nat} (h : n < limit) :
    (Value.ofNat n).natural? limit = some n := by
  simp [Value.natural?, Value.ofNat, ofDigits?_toDigits, h]

/-! ## Texts -/

theorem hexValue?_digitChar : ∀ n < 16, hexValue? (Nat.digitChar n) = some n := by decide

theorem joinPieces_char (c : Char) (parts : List Piece) :
    joinPieces (.char c :: parts) = (joinPieces parts).map (c :: ·) := by
  rw [joinPieces]
  cases joinPieces parts <;> rfl

/-- An escape by number stands for the character, since it is used for no surrogate. -/
theorem joinPieces_unit {c : Char} (h : c.toNat < 0x20) (parts : List Piece) :
    joinPieces (.unit c.toNat :: parts) = (joinPieces parts).map (c :: ·) := by
  have hhigh : isHighSurrogate c.toNat = false := by
    simp only [isHighSurrogate, Bool.and_eq_false_iff, decide_eq_false_iff_not]
    omega
  have hlow : isLowSurrogate c.toNat = false := by
    simp only [isLowSurrogate, Bool.and_eq_false_iff, decide_eq_false_iff_not]
    omega
  rw [joinPieces.eq_def]
  simp only [hhigh, hlow, Char.ofNat_toNat]
  cases joinPieces parts <;> rfl

theorem pieces_short {e c : Char} (h : shortEscape? e = some c) (hunit : e ≠ 'u')
    (cs : List Char) : pieces ('\\' :: e :: cs) =
      (pieces cs).map fun (parts, rest) => (.char c :: parts, rest) := by
  rw [pieces.eq_def]
  split
  case h_4 heq =>
    cases heq
    rw [h]
    cases pieces cs <;> rfl
  case h_5 hother heq =>
    cases heq
    exact absurd rfl (hother e cs rfl)
  all_goals
    rename_i heq
    cases heq
  exact absurd rfl hunit

theorem pieces_unit {n : Nat} (h : n < 0x20) (cs : List Char) :
    pieces ('\\' :: 'u' :: '0' :: '0' :: Nat.digitChar (n / 16) :: Nat.digitChar (n % 16) :: cs) =
      (pieces cs).map fun (parts, rest) => (.unit n :: parts, rest) := by
  have hzero : hexValue? '0' = some 0 := by decide
  have hvalue : 16 * (n / 16) + n % 16 = n := Nat.div_add_mod n 16
  rw [pieces, hzero, hexValue?_digitChar (n / 16) (by omega),
    hexValue?_digitChar (n % 16) (by omega)]
  cases pieces cs <;> simp [hvalue]

theorem pieces_plain {c : Char} (hquote : c ≠ '\x22') (hslash : c ≠ '\\')
    (hcontrol : ¬c.val < 0x20) (cs : List Char) :
    pieces (c :: cs) = (pieces cs).map fun (parts, rest) => (.char c :: parts, rest) := by
  rw [pieces.eq_def]
  split
  case h_5 heq =>
    cases heq
    rw [if_neg (by simp [hcontrol, hslash])]
    cases pieces cs <;> rfl
  all_goals
    rename_i heq
    cases heq
  · exact absurd rfl hquote
  · exact absurd rfl hslash
  · exact absurd rfl hslash

/-- An escaped character is read as one piece, which stands for the character. -/
theorem pieces_escaped (c : Char) (cs : List Char) : ∃ piece,
    pieces (escaped c ++ cs) = (pieces cs).map (fun (parts, rest) => (piece :: parts, rest)) ∧
      ∀ parts, joinPieces (piece :: parts) = (joinPieces parts).map (c :: ·) := by
  unfold escaped
  split
  case h_8 hquote hslash _ _ _ _ _ =>
    split_ifs with hcontrol
    · exact ⟨.unit c.toNat, pieces_unit hcontrol cs, joinPieces_unit hcontrol⟩
    · exact ⟨.char c, pieces_plain hquote hslash hcontrol cs, joinPieces_char c⟩
  all_goals exact ⟨.char _, pieces_short rfl (by decide) cs, joinPieces_char _⟩

theorem textBody_escaped (content : String) (rest : List Char) :
    textBody (content.toList.flatMap escaped ++ '\x22' :: rest) = some (some content, rest) := by
  have hpieces : ∀ cs : List Char, ∃ parts,
      pieces (cs.flatMap escaped ++ '\x22' :: rest) = some (parts, rest) ∧
        joinPieces parts = some cs := by
    intro cs
    induction cs with
    | nil => exact ⟨[], by simp [pieces], rfl⟩
    | cons c cs ih =>
        obtain ⟨parts, hparts, hjoin⟩ := ih
        obtain ⟨piece, hpiece, hstands⟩ := pieces_escaped c (cs.flatMap escaped ++ '\x22' :: rest)
        refine ⟨piece :: parts, ?_, ?_⟩
        · rw [List.flatMap_cons, List.append_assoc, hpiece, hparts]
          rfl
        · rw [hstands, hjoin]
          rfl
  obtain ⟨parts, hparts, hjoin⟩ := hpieces content.toList
  rw [textBody, hparts]
  show some ((joinPieces parts).map String.ofList, rest) = _
  rw [hjoin, Option.map_some, String.ofList_toList]

/-! ## Blanks -/

theorem skipBlanks_newLine (depth : Nat) (cs : List Char) :
    skipBlanks (newLine depth ++ cs) = skipBlanks cs := by
  have hblank : ∀ c ∈ newLine depth, isBlank c = true := by
    intro c hc
    rcases List.mem_cons.mp hc with rfl | hc
    · rfl
    · rw [List.eq_of_mem_replicate hc]
      rfl
  exact List.dropWhile_append_of_pos hblank

theorem skipBlanks_idem (cs : List Char) : skipBlanks (skipBlanks cs) = skipBlanks cs :=
  List.dropWhile_idempotent _ _

theorem skipBlanks_cons {c : Char} (h : isBlank c = false) (cs : List Char) :
    skipBlanks (c :: cs) = c :: cs := by
  simp [skipBlanks, h]

/-- Blanks in front of a value are of no concern. -/
theorem value_congr {cs cs' : List Char} (h : skipBlanks cs = skipBlanks cs') (fuel : Nat) :
    value fuel cs = value fuel cs' := by
  cases fuel with
  | zero => rw [value, value]
  | succ fuel => rw [value, value, h]

theorem arrayItems_congr {cs cs' : List Char} (h : skipBlanks cs = skipBlanks cs') (fuel : Nat) :
    arrayItems fuel cs = arrayItems fuel cs' := by
  cases fuel with
  | zero => rw [arrayItems, arrayItems]
  | succ fuel => rw [arrayItems, arrayItems, value_congr h]

theorem objectMembers_congr {cs cs' : List Char} (h : skipBlanks cs = skipBlanks cs')
    (fuel : Nat) : objectMembers fuel cs = objectMembers fuel cs' := by
  cases fuel with
  | zero => rw [objectMembers, objectMembers]
  | succ fuel => rw [objectMembers, objectMembers, h]

/-! ## Brackets -/

theorem value_closing (fuel : Nat) (cs : List Char) : value fuel (']' :: cs) = none := by
  cases fuel with
  | zero => rw [value]
  | succ fuel =>
      rw [value]
      rfl

theorem value_array {fuel : Nat} {cs rest : List Char} {items : List Value}
    (h : arrayItems fuel cs = some (items, rest)) :
    value (fuel + 1) ('[' :: cs) = some (.array items, rest) := by
  simp only [value, skipBlanks_cons (show isBlank '[' = false from rfl)]
  split
  · rename_i tail hclosing
    rw [arrayItems_congr ((skipBlanks_idem cs).symm.trans (congrArg skipBlanks hclosing))] at h
    cases fuel with
    | zero => cases h
    | succ fuel =>
        rw [arrayItems, value_closing] at h
        cases h
  · rw [arrayItems_congr (skipBlanks_idem cs), h]
    rfl

theorem value_object {fuel : Nat} {cs rest : List Char} {members : List (Option String × Value)}
    (h : objectMembers fuel cs = some (members, rest)) :
    value (fuel + 1) ('\x7b' :: cs) = some (.object members, rest) := by
  simp only [value, skipBlanks_cons (show isBlank '\x7b' = false from rfl)]
  split
  · rename_i tail hclosing
    cases fuel with
    | zero => cases h
    | succ fuel =>
        rw [objectMembers, hclosing] at h
        cases h
  · rw [objectMembers_congr (skipBlanks_idem cs), h]
    rfl

/-! ## Parts on lines -/

/-- Parts as they stand between brackets. -/
def joinLines (depth : Nat) (parts : List (List Char)) : List Char :=
  ((parts.map (newLine depth ++ ·)).intersperse [',']).flatten

@[simp]
theorem joinLines_singleton (depth : Nat) (part : List Char) :
    joinLines depth [part] = newLine depth ++ part := by
  simp [joinLines]

@[simp]
theorem joinLines_cons_cons (depth : Nat) (part next : List Char) (parts : List (List Char)) :
    joinLines depth (part :: next :: parts) =
      newLine depth ++ (part ++ ',' :: joinLines depth (next :: parts)) := by
  simp [joinLines]

theorem bracketed_cons (opening closing : Char) (depth : Nat) (part : List Char)
    (parts : List (List Char)) (rest : List Char) :
    bracketed opening closing depth (part :: parts) ++ rest =
      opening :: (joinLines (depth + 1) (part :: parts) ++ (newLine depth ++ closing :: rest)) := by
  simp [bracketed, joinLines]

theorem length_bracketed_cons (opening closing : Char) (depth : Nat) (part : List Char)
    (parts : List (List Char)) : (bracketed opening closing depth (part :: parts)).length =
      (joinLines (depth + 1) (part :: parts)).length + (newLine depth).length + 1 + 1 := by
  simp [bracketed, joinLines]
  omega

theorem exists_fuel {n fuel : Nat} (h : n + 1 ≤ fuel) : ∃ f, fuel = f + 1 :=
  ⟨fuel - 1, by omega⟩

theorem length_newLine (depth : Nat) : (newLine depth).length = 2 * depth + 1 := by
  simp [newLine]

/-- No number goes on here. -/
def Stops (cs : List Char) : Prop := ∀ c ∈ cs.head?, isNumberChar c = false

theorem stops_cons {c : Char} (h : isNumberChar c = false) (cs : List Char) : Stops (c :: cs) := by
  intro d hd
  obtain rfl : c = d := Option.some.inj hd
  exact h

theorem stops_newLine (depth : Nat) (cs : List Char) : Stops (newLine depth ++ cs) :=
  stops_cons rfl _

theorem stops_comma (cs : List Char) : Stops (',' :: cs) :=
  stops_cons rfl cs

/-- Where the value is laid out, it is read. -/
def IsRead (v : Value) : Prop :=
  ∀ depth fuel rest, (layout depth v).length ≤ fuel → Stops rest →
    value fuel (layout depth v ++ rest) = some (v, rest)

/-! ## Items -/

theorem arrayItems_last {fuel : Nat} {cs rest tail : List Char} {v : Value}
    (hv : value fuel cs = some (v, rest)) (hclosing : skipBlanks rest = ']' :: tail) :
    arrayItems (fuel + 1) cs = some ([v], tail) := by
  simp [arrayItems, hv, hclosing]

theorem arrayItems_next {fuel : Nat} {cs rest tail : List Char} {v : Value} {others : List Value}
    (hv : value fuel cs = some (v, ',' :: rest))
    (hothers : arrayItems fuel rest = some (others, tail)) :
    arrayItems (fuel + 1) cs = some (v :: others, tail) := by
  simp [arrayItems, hv, skipBlanks_cons, isBlank, hothers]

theorem arrayItems_joinLines {items : List Value} (hne : items ≠ []) (hread : ∀ v ∈ items, IsRead v)
    {inner outer : Nat} (fuel : Nat)
    (hfuel : (joinLines inner (layoutItems inner items)).length ≤ fuel) (rest : List Char) :
    arrayItems fuel (joinLines inner (layoutItems inner items) ++ (newLine outer ++ ']' :: rest)) =
      some (items, rest) := by
  induction items generalizing fuel with
  | nil => exact absurd rfl hne
  | cons v others ih =>
      have hline := length_newLine inner
      have hv : ∀ fuel rest, (layout inner v).length ≤ fuel → Stops rest →
          value fuel (newLine inner ++ (layout inner v ++ rest)) = some (v, rest) := by
        intro fuel rest hlen hstops
        rw [value_congr (skipBlanks_newLine inner _)]
        exact hread v List.mem_cons_self inner fuel rest hlen hstops
      cases others with
      | nil =>
          simp only [layoutItems, joinLines_singleton, List.length_append,
            List.append_assoc] at hfuel ⊢
          obtain ⟨fuel, rfl⟩ : ∃ f, fuel = f + 1 := ⟨fuel - 1, by omega⟩
          refine arrayItems_last (hv fuel _ (by omega) (stops_newLine outer _)) ?_
          rw [skipBlanks_newLine, skipBlanks_cons rfl]
      | cons w others =>
          simp only [layoutItems, joinLines_cons_cons, List.length_append, List.length_cons,
            List.append_assoc, List.cons_append] at hfuel ⊢
          obtain ⟨fuel, rfl⟩ : ∃ f, fuel = f + 1 := ⟨fuel - 1, by omega⟩
          refine arrayItems_next (hv fuel _ (by omega) (stops_comma _)) ?_
          refine ih (List.cons_ne_nil w others)
            (fun u hu => hread u (List.mem_cons_of_mem v hu)) fuel ?_
          simp only [layoutItems]
          omega

/-! ## Members -/

/-- A member as it is laid out. -/
def layoutMember (depth : Nat) (name : String) (v : Value) : List Char :=
  quotedText (some name) ++ [':', ' '] ++ layout depth v

theorem layoutMembers_cons (depth : Nat) (name : String) (v : Value)
    (members : List (Option String × Value)) :
    layoutMembers depth ((some name, v) :: members) =
      layoutMember depth name v :: layoutMembers depth members := rfl

theorem length_layout_le (depth : Nat) (name : String) (v : Value) :
    (layout depth v).length ≤ (layoutMember depth name v).length := by
  rw [layoutMember, List.length_append]
  exact Nat.le_add_left _ _

/-- A member is read up to what follows its value. -/
theorem objectMembers_member {depth fuel : Nat} {name : String} {v : Value} {cs rest : List Char}
    (hcs : skipBlanks cs = layoutMember depth name v ++ rest)
    (hv : value fuel (layout depth v ++ rest) = some (v, rest)) :
    objectMembers (fuel + 1) cs =
      match skipBlanks rest with
      | ',' :: rest => do
        let (others, rest) ← objectMembers fuel rest
        return ((some name, v) :: others, rest)
      | '\x7d' :: rest => some ([(some name, v)], rest)
      | _ => none := by
  have hname : skipBlanks cs = '\x22' :: (name.toList.flatMap escaped ++
      '\x22' :: ':' :: ' ' :: (layout depth v ++ rest)) := by
    rw [hcs]
    simp [layoutMember, quotedText]
  have hblank : skipBlanks (' ' :: (layout depth v ++ rest)) =
      skipBlanks (layout depth v ++ rest) := by simp [skipBlanks, isBlank]
  rw [← value_congr hblank] at hv
  rw [objectMembers, hname]
  simp only [textBody_escaped, Option.bind_eq_bind, Option.bind_some,
    skipBlanks_cons (show isBlank ':' = false from rfl), hv]
  rfl

theorem objectMembers_joinLines {members : List (Option String × Value)} (hne : members ≠ [])
    (hnames : ∀ m ∈ members, ∃ name, m.1 = some name) (hread : ∀ m ∈ members, IsRead m.2)
    {inner outer : Nat} (fuel : Nat)
    (hfuel : (joinLines inner (layoutMembers inner members)).length ≤ fuel) (rest : List Char) :
    objectMembers fuel
        (joinLines inner (layoutMembers inner members) ++ (newLine outer ++ '\x7d' :: rest)) =
      some (members, rest) := by
  induction members generalizing fuel with
  | nil => exact absurd rfl hne
  | cons m others ih =>
      obtain ⟨_, v⟩ := m
      obtain ⟨name, rfl⟩ := hnames _ List.mem_cons_self
      have hline := length_newLine inner
      have hlength := length_layout_le inner name v
      have hv : ∀ fuel rest, (layout inner v).length ≤ fuel → Stops rest →
          value fuel (layout inner v ++ rest) = some (v, rest) :=
        hread _ List.mem_cons_self inner
      have hmember : ∀ rest, skipBlanks (newLine inner ++ (layoutMember inner name v ++ rest)) =
          layoutMember inner name v ++ rest := by
        intro rest
        rw [skipBlanks_newLine, layoutMember, quotedText]
        exact skipBlanks_cons rfl _
      rw [layoutMembers_cons] at hfuel ⊢
      cases others with
      | nil =>
          simp only [layoutMembers, joinLines_singleton, List.length_append,
            List.append_assoc] at hfuel ⊢
          obtain ⟨fuel, rfl⟩ : ∃ f, fuel = f + 1 := ⟨fuel - 1, by omega⟩
          rw [objectMembers_member (hmember _) (hv fuel _ (by omega) (stops_newLine outer _)),
            skipBlanks_newLine, skipBlanks_cons rfl]
          rfl
      | cons next others =>
          obtain ⟨_, w⟩ := next
          obtain ⟨title, rfl⟩ := hnames _ (List.mem_cons_of_mem _ List.mem_cons_self)
          specialize ih (List.cons_ne_nil _ others)
            (fun m hm => hnames m (List.mem_cons_of_mem _ hm))
            (fun m hm => hread m (List.mem_cons_of_mem _ hm))
          rw [layoutMembers_cons] at hfuel ih ⊢
          simp only [joinLines_cons_cons, List.length_append, List.length_cons,
            List.append_assoc, List.cons_append] at hfuel ⊢
          obtain ⟨fuel, rfl⟩ : ∃ f, fuel = f + 1 := ⟨fuel - 1, by omega⟩
          rw [objectMembers_member (hmember _) (hv fuel _ (by omega) (stops_comma _)),
            skipBlanks_cons rfl]
          show (objectMembers fuel _).bind _ = _
          rw [ih fuel (by omega)]
          rfl

/-! ## Documents -/

/-- The numbers are written as numbers, and the texts are readable. -/
inductive Printable : Value → Prop
  | null : Printable .null
  | bool (value : Bool) : Printable (.bool value)
  | number {literal : List Char} (hnumber : isNumber literal = true)
      (hchars : ∀ c ∈ literal, isNumberChar c = true) : Printable (.number literal)
  | text (content : String) : Printable (.text (some content))
  | array {items : List Value} (hitems : ∀ v ∈ items, Printable v) : Printable (.array items)
  | object {members : List (Option String × Value)}
      (hnames : ∀ m ∈ members, ∃ name, m.1 = some name)
      (hvalues : ∀ m ∈ members, Printable m.2) : Printable (.object members)

theorem printable_ofNat (n : Nat) : Printable (Value.ofNat n) := by
  refine .number (isNumber_toDigits n) fun c hc => ?_
  simp [isNumberChar, all_isDigit_toDigits n c hc]

/-- A number is taken up to where no number goes on. -/
theorem span_number {literal rest : List Char} (hchars : ∀ c ∈ literal, isNumberChar c = true)
    (hstops : Stops rest) : (literal ++ rest).takeWhile isNumberChar = literal ∧
      (literal ++ rest).dropWhile isNumberChar = rest := by
  rw [List.takeWhile_append_of_pos hchars, List.dropWhile_append_of_pos hchars]
  cases rest with
  | nil => exact ⟨List.append_nil literal, rfl⟩
  | cons c rest => simp [hstops c rfl]

theorem isBlank_of_isNumberChar {c : Char} (h : isNumberChar c = true) : isBlank c = false := by
  rw [Bool.eq_false_iff]
  intro hblank
  simp only [isBlank, Bool.or_eq_true, beq_iff_eq] at hblank
  rcases hblank with ((rfl | rfl) | rfl) | rfl <;> cases h

theorem value_number {literal rest : List Char} (hnumber : isNumber literal = true)
    (hchars : ∀ c ∈ literal, isNumberChar c = true) (hstops : Stops rest) (fuel : Nat) :
    value (fuel + 1) (literal ++ rest) = some (.number literal, rest) := by
  obtain ⟨htake, hdrop⟩ := span_number hchars hstops
  cases literal with
  | nil => cases hnumber
  | cons c tail =>
      have hc := hchars c List.mem_cons_self
      have hfirst : ∀ d cs, skipBlanks (c :: tail ++ rest) = d :: cs → isNumberChar d = true := by
        intro d cs heq
        rw [List.cons_append, skipBlanks_cons (isBlank_of_isNumberChar hc)] at heq
        obtain ⟨rfl, _⟩ := List.cons.inj heq
        exact hc
      rw [value]
      split
      case h_7 =>
        rw [List.cons_append, skipBlanks_cons (isBlank_of_isNumberChar hc), ← List.cons_append]
        simp only [htake, hdrop, hnumber, if_true]
      -- a number begins like nothing else
      all_goals
        rename_i heq
        cases hfirst _ _ heq

theorem value_text (content : String) (rest : List Char) (fuel : Nat) :
    value (fuel + 1) (quotedText (some content) ++ rest) = some (.text (some content), rest) := by
  have hquoted : quotedText (some content) ++ rest =
      '\x22' :: (content.toList.flatMap escaped ++ '\x22' :: rest) := by simp [quotedText]
  rw [hquoted, value, skipBlanks_cons rfl]
  simp [textBody_escaped]

theorem isRead_array {items : List Value} (h : ∀ v ∈ items, IsRead v) : IsRead (.array items) := by
  intro depth fuel rest hfuel _
  rw [layout] at hfuel ⊢
  cases items with
  | nil =>
      obtain ⟨fuel, rfl⟩ := exists_fuel (n := 1) hfuel
      rw [layoutItems, value]
      rfl
  | cons v others =>
      obtain ⟨part, parts, hparts⟩ : ∃ part parts,
          layoutItems (depth + 1) (v :: others) = part :: parts := ⟨_, _, rfl⟩
      rw [hparts, length_bracketed_cons] at hfuel
      obtain ⟨fuel, rfl⟩ := exists_fuel hfuel
      rw [hparts, bracketed_cons, ← hparts]
      exact value_array (arrayItems_joinLines (List.cons_ne_nil v others) h fuel
        (by rw [hparts]; omega) rest)

theorem isRead_object {members : List (Option String × Value)}
    (hnames : ∀ m ∈ members, ∃ name, m.1 = some name) (h : ∀ m ∈ members, IsRead m.2) :
    IsRead (.object members) := by
  intro depth fuel rest hfuel _
  rw [layout] at hfuel ⊢
  cases members with
  | nil =>
      obtain ⟨fuel, rfl⟩ := exists_fuel (n := 1) hfuel
      rw [layoutMembers, value]
      rfl
  | cons m others =>
      obtain ⟨part, parts, hparts⟩ : ∃ part parts,
          layoutMembers (depth + 1) (m :: others) = part :: parts := ⟨_, _, rfl⟩
      rw [hparts, length_bracketed_cons] at hfuel
      obtain ⟨fuel, rfl⟩ := exists_fuel hfuel
      rw [hparts, bracketed_cons, ← hparts]
      exact value_object (objectMembers_joinLines (List.cons_ne_nil m others) hnames h fuel
        (by rw [hparts]; omega) rest)

theorem Printable.isRead {v : Value} (h : Printable v) : IsRead v := by
  induction h with
  | array _ ih => exact isRead_array ih
  | object hnames _ ih => exact isRead_object hnames ih
  | null =>
      intro depth fuel rest hfuel _
      obtain ⟨fuel, rfl⟩ := exists_fuel (n := 3) hfuel
      rw [layout, value]
      rfl
  | bool b =>
      intro depth fuel rest hfuel _
      cases b with
      | false =>
          obtain ⟨fuel, rfl⟩ := exists_fuel (n := 4) hfuel
          rw [layout, value]
          rfl
      | true =>
          obtain ⟨fuel, rfl⟩ := exists_fuel (n := 3) hfuel
          rw [layout, value]
          rfl
  | @number literal hnumber hchars =>
      intro depth fuel rest hfuel hstops
      rw [layout] at hfuel ⊢
      cases literal with
      | nil => cases hnumber
      | cons c tail =>
          obtain ⟨fuel, rfl⟩ := exists_fuel hfuel
          exact value_number hnumber hchars hstops fuel
  | text content =>
      intro depth fuel rest hfuel _
      rw [layout] at hfuel ⊢
      obtain ⟨fuel, rfl⟩ := exists_fuel hfuel
      exact value_text content rest fuel

/-- A printable value is read from the document that is printed for it. -/
theorem parse?_render {v : Value} (h : Printable v) : parse? (render v) = some v := by
  have hread := h.isRead 0 (2 * (layout 0 v).length + 2) [] (by omega) (by simp [Stops])
  rw [List.append_nil] at hread
  simp only [parse?, render, String.toList_ofList, hread]
  rfl

end CoinLedger.Json
