import RecordFilter.Json.Record
import RecordFilter.Json.Text
import Mathlib.Tactic.SplitIfs

/-! Written texts are read again. The compact text of a value without floats is the source of that value: strings come
    back from their escapes, integers of 64 bits from their digits, and lists and objects from their items. -/

namespace RecordFilter.Json

namespace Source

/-! ### Strings -/

/-- The piece that a written character is read as. -/
def written (c : Char) : Piece :=
  if c.toNat < 32 ∧ c.toNat ∉ [8, 9, 10, 12, 13] then .unit c.toNat else .char c

/-- Reads a piece more in front. -/
def pushPiece (p : Piece) (read : Option (List Piece × List Char)) : Option (List Piece × List Char) :=
  read.map fun found => (p :: found.1, found.2)

theorem readPieces?_plain {c : Char} (hquote : c ≠ '"') (hslash : c ≠ '\\') (hlow : ¬c.toNat < 32) (rest : List Char) :
    readPieces? (c :: rest) = pushPiece (.char c) (readPieces? rest) := by
  rw [readPieces?.eq_def]
  split
  · contradiction
  · simp_all
  · simp_all
  · simp_all
  · rename_i heq
    cases heq
    rw [if_neg (by simp [hslash, hlow])]
    cases readPieces? rest <;> rfl

theorem readPieces?_short {c escaped : Char} (h : shortEscape? escaped = some c) (rest : List Char) :
    readPieces? ('\\' :: escaped :: rest) = pushPiece (.char c) (readPieces? rest) := by
  have hu : escaped ≠ 'u' := by
    rintro rfl
    cases h
  rw [readPieces?.eq_def]
  split
  · contradiction
  · simp_all
  · simp_all
  · rename_i heq
    cases heq
    rw [h]
    cases readPieces? rest <;> rfl
  · rename_i hescape heq
    cases heq
    exact absurd rfl (hescape _ _ rfl)

theorem hexValue?_hexDigit {n : Nat} (h : n < 16) : hexValue? (Text.hexDigit n) = some n := by
  revert n
  decide

theorem readPieces?_unit {n : Nat} (h : n < 65536) (rest : List Char) :
    readPieces? ('\\' :: 'u' :: (Text.hexDigits 4 n ++ rest)) = pushPiece (.unit n) (readPieces? rest) := by
  have hunit : unit? (Text.hexDigit (n / 16 / 16 / 16 % 16)) (Text.hexDigit (n / 16 / 16 % 16))
      (Text.hexDigit (n / 16 % 16)) (Text.hexDigit (n % 16)) = some n := by
    unfold unit?
    rw [hexValue?_hexDigit (Nat.mod_lt _ (by decide)), hexValue?_hexDigit (Nat.mod_lt _ (by decide)),
      hexValue?_hexDigit (Nat.mod_lt _ (by decide)), hexValue?_hexDigit (Nat.mod_lt _ (by decide))]
    exact congrArg some (by omega)
  show readPieces? ('\\' :: 'u' :: _ :: _ :: _ :: _ :: rest) = _
  rw [readPieces?, hunit]
  cases readPieces? rest <;> rfl

theorem readPieces?_escapeChar (c : Char) (rest : List Char) :
    readPieces? (escapeChar c ++ rest) = pushPiece (written c) (readPieces? rest) := by
  -- A short escape stands for the character with its code.
  have short {n : Nat} {escaped : Char} (hcode : c.toNat = n) (hread : shortEscape? escaped = some (Char.ofNat n))
      (hn : ¬(n < 32 ∧ n ∉ [8, 9, 10, 12, 13])) :
      readPieces? (['\\', escaped] ++ rest) = pushPiece (written c) (readPieces? rest) := by
    rw [written, hcode, if_neg hn, ← Char.ofNat_toNat c, hcode]
    exact readPieces?_short hread rest
  unfold escapeChar
  split_ifs with hquote hslash h8 h9 h10 h12 h13 hlow
  · subst hquote
    exact readPieces?_short rfl rest
  · subst hslash
    exact readPieces?_short rfl rest
  · exact short h8 rfl (by decide)
  · exact short h9 rfl (by decide)
  · exact short h10 rfl (by decide)
  · exact short h12 rfl (by decide)
  · exact short h13 rfl (by decide)
  · rw [written, if_pos ⟨hlow, by simp [h8, h9, h10, h12, h13]⟩]
    exact readPieces?_unit (by omega) rest
  · rw [written, if_neg (fun h => hlow h.1)]
    exact readPieces?_plain hquote hslash hlow rest

theorem readPieces?_escaped (s rest : List Char) :
    readPieces? (s.flatMap escapeChar ++ '"' :: rest) = some (s.map written, rest) := by
  induction s with
  | nil => rfl
  | cons c s ih =>
    rw [List.flatMap_cons, List.append_assoc, readPieces?_escapeChar, ih]
    rfl

theorem join?_unit {u : Nat} (h : u < 0xD800) (ps : List Piece) :
    join? (.unit u :: ps) = (join? ps).map (Char.ofNat u :: ·) := by
  rw [join?.eq_def]
  split
  · contradiction
  · simp_all
  · rename_i high low rest heq
    cases heq
    rw [if_neg (by omega), if_neg (by omega)]
  · rename_i heq
    cases heq
    rw [if_neg (by omega)]

theorem join?_written (s : List Char) : join? (s.map written) = some s := by
  induction s with
  | nil => rfl
  | cons c s ih =>
    rw [List.map_cons, written]
    split
    · rename_i hlow
      rw [join?_unit (by omega), ih, Char.ofNat_toNat]
      rfl
    · rw [join?, ih]
      rfl

/-- A written string is read up to its closing quote. -/
theorem readString?_quoted (s rest : List Char) :
    readString? (s.flatMap escapeChar ++ '"' :: rest) = some (some (String.ofList s), rest) := by
  simp only [readString?, readPieces?_escaped, join?_written, Option.map_some]

/-! ### Numbers -/

/-- What may follow a value inside another one, or nothing. -/
def Follows (rest : List Char) : Prop := ∀ c ∈ rest.head?, c = ',' ∨ c = ']' ∨ c = '\x7d'

end Source

namespace Numeral

theorem digit?_of_isDigit {c : Char} (h : c.isDigit) : digit? c = some (c.toNat - 48) := if_pos h

theorem digits_append {ds rest : List Char} (hds : ∀ c ∈ ds, c.isDigit) (hrest : Source.Follows rest) :
    digits (ds ++ rest) = (ds.map (·.toNat - 48), rest) := by
  induction ds with
  | nil =>
    cases rest with
    | nil => rfl
    | cons c rest =>
      have hc : digit? c = none := by rcases hrest c rfl with rfl | rfl | rfl <;> rfl
      rw [List.nil_append, digits, hc]
      rfl
  | cons c ds ih =>
    obtain ⟨hc, hds⟩ := List.forall_mem_cons.mp hds
    rw [List.cons_append, digits, digit?_of_isDigit hc]
    dsimp only
    rw [ih hds]
    rfl

theorem natural_digits (n : Nat) : natural ((Nat.toDigits 10 n).map (·.toNat - 48)) = n := by
  have hvalue := Nat.ofDigitChars_toDigits (b := 10) (n := n) (by decide) (by decide)
  rw [Nat.ofDigitChars_eq_foldl] at hvalue
  unfold natural
  rw [List.foldl_map]
  simpa [Nat.mul_comm] using hvalue

theorem isDigit_toDigits {n : Nat} : ∀ c ∈ Nat.toDigits 10 n, c.isDigit := fun _ hc =>
  Nat.isDigit_of_mem_toDigits (by decide) (by decide) hc

/-- The digits of a positive natural start with another one than zero. -/
theorem toDigits_eq_cons {n : Nat} (h : 0 < n) : ∃ c rest, Nat.toDigits 10 n = c :: rest ∧ c ≠ '0' := by
  induction n using Nat.strongRecOn with
  | ind n ih =>
    by_cases hsmall : n < 10
    · have hchar : ∀ n < 10, 0 < n → n.digitChar ≠ '0' := by decide
      exact ⟨n.digitChar, [], Nat.toDigits_of_lt_base hsmall, hchar n hsmall h⟩
    · obtain ⟨c, rest, hdigits, hc⟩ := ih (n / 10) (by omega) (by omega)
      exact ⟨c, _, by rw [Nat.toDigits_of_base_le (by decide) (by omega), hdigits]; rfl, hc⟩

theorem isWhole_digits (n : Nat) : isWhole ((Nat.toDigits 10 n).map (·.toNat - 48)) = true := by
  rcases Nat.eq_zero_or_pos n with rfl | hn
  · rfl
  · obtain ⟨c, rest, hdigits, hc⟩ := toDigits_eq_cons hn
    have hdigit : c.isDigit := isDigit_toDigits c (hdigits ▸ List.mem_cons_self)
    have hlow : '0'.toNat ≤ c.toNat := by
      simp only [Char.isDigit, Bool.and_eq_true, decide_eq_true_eq] at hdigit
      exact hdigit.1
    have hvalue : c.toNat - 48 ≠ 0 := fun h =>
      hc (Char.toNat_inj.mp (Nat.le_antisymm (Nat.sub_eq_zero_iff_le.mp h) hlow))
    rw [hdigits, List.map_cons]
    cases rest with
    | nil => rfl
    | cons d rest => simpa [isWhole] using hvalue

/-- The digits of a natural are read up to their end. -/
theorem readUnsigned?_digits (negative : Bool) (n : Nat) {rest : List Char} (hrest : Source.Follows rest) :
    readUnsigned? negative (Nat.toDigits 10 n ++ rest) =
      some (⟨negative, (Nat.toDigits 10 n).map (·.toNat - 48), none, none⟩, rest) := by
  have hfraction : readFraction? rest = some (none, rest) := by
    cases rest with
    | nil => rfl
    | cons c rest => rcases hrest c rfl with rfl | rfl | rfl <;> rfl
  have hpower : readPower? rest = some (none, rest) := by
    cases rest with
    | nil => rfl
    | cons c rest => rcases hrest c rfl with rfl | rfl | rfl <;> rfl
  simp only [readUnsigned?, digits_append isDigit_toDigits hrest, isWhole_digits, if_true, hfraction, hpower]

end Numeral

namespace Source

/-- An integer that fits 64 bits, with a sign or without. -/
def Fits (n : Int) : Prop := -(signedLimit : Int) ≤ n ∧ n < unsignedLimit

theorem intText_of_neg {n : Int} (h : n < 0) : (intText n).toList = '-' :: Nat.toDigits 10 n.natAbs := by
  rw [intText, if_pos h, String.toList_append, Nat.toList_repr]
  rfl

theorem intText_of_not_neg {n : Int} (h : ¬n < 0) : (intText n).toList = Nat.toDigits 10 n.natAbs := by
  rw [intText, if_neg h, Nat.toList_repr]

theorem intText_eq_cons (n : Int) : ∃ c rest, (intText n).toList = c :: rest ∧ (c = '-' ∨ c.isDigit) := by
  by_cases hneg : n < 0
  · exact ⟨_, _, intText_of_neg hneg, .inl rfl⟩
  · rw [intText_of_not_neg hneg]
    obtain ⟨c, rest, hdigits⟩ := List.exists_cons_of_ne_nil (Nat.toDigits_ne_nil (b := 10) (n := n.natAbs))
    exact ⟨c, rest, hdigits, .inr (Numeral.isDigit_toDigits c (hdigits ▸ List.mem_cons_self))⟩

theorem readNumber_intText {n : Int} (h : Fits n) {rest : List Char} (hrest : Follows rest) :
    readNumber ((intText n).toList ++ rest) = .ok (.int n, rest) := by
  obtain ⟨hlow, hhigh⟩ := h
  unfold readNumber
  by_cases hneg : n < 0
  · rw [intText_of_neg hneg, List.cons_append, Numeral.read?, Numeral.readUnsigned?_digits true n.natAbs hrest]
    simp only [ofNumeral, Numeral.number?, Numeral.natural_digits, if_true]
    rw [if_pos ⟨by omega, by omega⟩, show -(n.natAbs : Int) = n by omega]
  · have hread : Numeral.read? (Nat.toDigits 10 n.natAbs ++ rest) =
        Numeral.readUnsigned? false (Nat.toDigits 10 n.natAbs ++ rest) := by
      obtain ⟨c, cs, hdigits⟩ := List.exists_cons_of_ne_nil (Nat.toDigits_ne_nil (b := 10) (n := n.natAbs))
      have hc : c ≠ '-' := by
        rintro rfl
        exact absurd (Numeral.isDigit_toDigits '-' (hdigits ▸ List.mem_cons_self)) (by decide)
      rw [hdigits, List.cons_append, Numeral.read?.eq_def]
      split
      · exact absurd (List.cons.inj ‹_›).1 hc
      · rfl
    rw [intText_of_not_neg hneg, hread, Numeral.readUnsigned?_digits false n.natAbs hrest]
    simp only [ofNumeral, Numeral.number?, Numeral.natural_digits, Bool.false_eq_true, if_false]
    rw [if_pos (by omega), show (n.natAbs : Int) = n by omega]

/-! ### Values -/

end Source

mutual

/-- The value has a text that is read as it: there are no floats in it, and its integers fit 64 bits. -/
def Exact : Json → Prop
  | int n => Source.Fits n
  | float _ => False
  | arr items => ExactItems items
  | obj members => ExactMembers members
  | _ => True

/-- All items are exact. -/
def ExactItems : List Json → Prop
  | [] => True
  | item :: rest => item.Exact ∧ ExactItems rest

/-- The values of all members are exact. -/
def ExactMembers : List (String × Json) → Prop
  | [] => True
  | (_, value) :: rest => value.Exact ∧ ExactMembers rest

end

theorem exactMembers_of_forall {members : List (String × Json)} (h : ∀ e ∈ members, e.2.Exact) :
    ExactMembers members := by
  induction members with
  | nil => trivial
  | cons e rest ih =>
    obtain ⟨hfirst, hrest⟩ := List.forall_mem_cons.mp h
    exact ⟨hfirst, ih hrest⟩

namespace Source

theorem skipBlanks_cons {c : Char} (h : isBlank c = false) (rest : List Char) : skipBlanks (c :: rest) = c :: rest := by
  rw [skipBlanks, h, if_neg Bool.false_ne_true]

theorem skipBlanks_quote (rest : List Char) : skipBlanks ('"' :: rest) = '"' :: rest := skipBlanks_cons rfl rest

theorem skipBlanks_colon (rest : List Char) : skipBlanks (':' :: rest) = ':' :: rest := skipBlanks_cons rfl rest

theorem quoted_toList (s : String) : (quoted s).toList = '"' :: (s.toList.flatMap escapeChar ++ ['"']) := by
  simp [quoted, quotedChars]

/-- A text starts with a character that is no blank and does not end a list. -/
theorem text_eq_cons {j : Json} (h : j.Exact) :
    ∃ c rest, j.text.toList = c :: rest ∧ isBlank c = false ∧ c ≠ ']' := by
  cases j with
  | null => exact ⟨_, _, rfl, rfl, by decide⟩
  | bool b => cases b <;> exact ⟨_, _, rfl, rfl, by decide⟩
  | int n =>
    obtain ⟨c, rest, htext, hc⟩ := intText_eq_cons n
    refine ⟨c, rest, htext, ?_⟩
    rcases hc with rfl | hc
    · decide
    · constructor
      · unfold isBlank
        simp only [Bool.or_eq_false_iff, decide_eq_false_iff_not]
        refine ⟨⟨⟨?_, ?_⟩, ?_⟩, ?_⟩ <;>
        · rintro rfl
          cases hc
      · rintro rfl
        cases hc
  | float x => exact h.elim
  | str s => exact ⟨_, _, quoted_toList s, rfl, by decide⟩
  | arr items => exact ⟨'[', _, by rw [text, String.toList_append, String.toList_append]; rfl, rfl, by decide⟩
  | obj members => exact ⟨'\x7b', _, by rw [text, String.toList_append, String.toList_append]; rfl, rfl, by decide⟩

section
variable {fuel : Nat} {c : Char} {input rest after : List Char} {item value : Source} {items : List Source}
  {members : List (Option String × Source)}

theorem readValue_str (s : List Char) (rest : List Char) :
    readValue (fuel + 1) ('"' :: (s.flatMap escapeChar ++ '"' :: rest)) = .ok (.str (String.ofList s), rest) := by
  simp only [readValue, skipBlanks_quote, readString?_quoted]

theorem readValue_number (hc : c = '-' ∨ c.isDigit) : readValue (fuel + 1) (c :: rest) = readNumber (c :: rest) := by
  have hdigit : ∀ d : Char, (d.isDigit = false ∧ d ≠ '-') → c ≠ d := by
    rintro d ⟨hd, hne⟩ rfl
    rcases hc with hc | hc
    · exact hne hc
    · rw [hd] at hc
      cases hc
  have hblank : isBlank c = false := by
    simp only [isBlank, Bool.or_eq_false_iff, decide_eq_false_iff_not]
    exact ⟨⟨⟨hdigit _ (by decide), hdigit _ (by decide)⟩, hdigit _ (by decide)⟩, hdigit _ (by decide)⟩
  rw [readValue.eq_def]
  dsimp only
  rw [skipBlanks_cons hblank]
  split
  case h_1 heq => cases heq
  case h_8 heq =>
    cases heq
    rw [if_pos hc]
  all_goals exact absurd (List.cons.inj ‹_›).1 (hdigit _ (by decide))

theorem readValue_arr (hblank : isBlank c = false) (hc : c ≠ ']')
    (h : readItems fuel (c :: rest) = .ok (items, after)) :
    readValue (fuel + 1) ('[' :: c :: rest) = .ok (.arr items, after) := by
  have hstart : skipBlanks ('[' :: c :: rest) = '[' :: c :: rest := skipBlanks_cons rfl _
  simp only [readValue, hstart, skipBlanks_cons hblank]
  split
  · exact absurd (List.cons.inj ‹_›).1 hc
  · rw [h]
    rfl

theorem readValue_obj (h : readMembers fuel ('"' :: rest) = .ok (members, after)) :
    readValue (fuel + 1) ('\x7b' :: '"' :: rest) = .ok (.obj members, after) := by
  have hstart : skipBlanks ('\x7b' :: '"' :: rest) = '\x7b' :: '"' :: rest := skipBlanks_cons rfl _
  simp only [readValue, hstart, skipBlanks_quote]
  split
  · exact absurd (List.cons.inj ‹_›).1 (by decide)
  · rw [h]
    rfl

theorem readItems_last (h : readValue fuel input = .ok (item, ']' :: rest)) :
    readItems (fuel + 1) input = .ok ([item], rest) := by
  rw [readItems, h]
  rfl

theorem readItems_next (h : readValue fuel input = .ok (item, ',' :: rest))
    (hrest : readItems fuel rest = .ok (items, after)) : readItems (fuel + 1) input = .ok (item :: items, after) := by
  rw [readItems, h]
  show (readItems fuel rest >>= fun read => return (item :: read.1, read.2)) = _
  rw [hrest]
  rfl

theorem readMembers_last {key : List Char} (h : readValue fuel rest = .ok (value, '\x7d' :: after)) :
    readMembers (fuel + 1) ('"' :: (key.flatMap escapeChar ++ '"' :: ':' :: rest)) =
      .ok ([(some (String.ofList key), value)], after) := by
  simp only [readMembers, skipBlanks_quote, readString?_quoted, skipBlanks_colon, h]
  rfl

theorem readMembers_next {key : List Char} (h : readValue fuel rest = .ok (value, ',' :: input))
    (hrest : readMembers fuel input = .ok (members, after)) :
    readMembers (fuel + 1) ('"' :: (key.flatMap escapeChar ++ '"' :: ':' :: rest)) =
      .ok ((some (String.ofList key), value) :: members, after) := by
  simp only [readMembers, skipBlanks_quote, readString?_quoted, skipBlanks_colon, h]
  show (readMembers fuel input >>= fun read => return ((some (String.ofList key), value) :: read.1, read.2)) = _
  rw [hrest]
  rfl

theorem readValue_word (rest : List Char) :
    readValue (fuel + 1) ((text .null).toList ++ rest) = .ok (.null, rest) ∧
      ∀ b, readValue (fuel + 1) ((text (.bool b)).toList ++ rest) = .ok (.bool b, rest) := by
  have hnull : (text .null).toList = ['n', 'u', 'l', 'l'] := rfl
  have htrue : (text (.bool true)).toList = ['t', 'r', 'u', 'e'] := rfl
  have hfalse : (text (.bool false)).toList = ['f', 'a', 'l', 's', 'e'] := rfl
  refine ⟨by rw [hnull]; rfl, fun b => ?_⟩
  cases b
  · rw [hfalse]
    rfl
  · rw [htrue]
    rfl

end

/-! ### Texts inside texts -/

theorem text_arr (items : List Json) (rest : List Char) :
    (text (.arr items)).toList ++ rest = '[' :: ((String.intercalate "," (textItems items)).toList ++ ']' :: rest) := by
  rw [Json.text.eq_def]
  simp

theorem text_obj (members : List (String × Json)) (rest : List Char) :
    (text (.obj members)).toList ++ rest =
      '\x7b' :: ((String.intercalate "," (textMembers members)).toList ++ '\x7d' :: rest) := by
  rw [Json.text.eq_def]
  simp

theorem textItems_last (item : Json) (rest : List Char) :
    (String.intercalate "," (textItems [item])).toList ++ rest = item.text.toList ++ rest := by
  simp only [textItems, String.intercalate_singleton]

theorem textItems_next (item next : Json) (items : List Json) (rest : List Char) :
    (String.intercalate "," (textItems (item :: next :: items))).toList ++ rest =
      item.text.toList ++ ',' :: ((String.intercalate "," (textItems (next :: items))).toList ++ rest) := by
  simp [textItems, String.intercalate_cons_cons]

theorem textMembers_last (key : String) (value : Json) (rest : List Char) :
    (String.intercalate "," (textMembers [(key, value)])).toList ++ rest =
      '"' :: (key.toList.flatMap escapeChar ++ '"' :: ':' :: (value.text.toList ++ rest)) := by
  simp [textMembers, String.intercalate_singleton, quoted_toList]

theorem textMembers_next (key : String) (value : Json) (next : String × Json) (members : List (String × Json))
    (rest : List Char) :
    (String.intercalate "," (textMembers ((key, value) :: next :: members))).toList ++ rest =
      '"' :: (key.toList.flatMap escapeChar ++ '"' :: ':' :: (value.text.toList ++
        ',' :: ((String.intercalate "," (textMembers (next :: members))).toList ++ rest))) := by
  simp [textMembers, String.intercalate_cons_cons, quoted_toList]

/-! ### Whole texts -/

/-- With fuel for the text of the value, the reader reads the value up to what follows it. -/
def Reads (j : Json) : Prop :=
  ∀ fuel rest, 2 * j.text.toList.length ≤ fuel → Follows rest →
    readValue fuel (j.text.toList ++ rest) = .ok (ofJson j, rest)

theorem readItems_text {items : List Json} (hreads : ∀ j ∈ items, Reads j) (hne : items ≠ []) {fuel : Nat}
    (hfuel : 2 * (String.intercalate "," (textItems items)).toList.length < fuel) (rest : List Char) :
    readItems fuel ((String.intercalate "," (textItems items)).toList ++ ']' :: rest) =
      .ok (ofJsonItems items, rest) := by
  induction items generalizing fuel with
  | nil => exact absurd rfl hne
  | cons item items ih =>
    obtain ⟨fuel, rfl⟩ := Nat.exists_eq_add_one_of_ne_zero (Nat.ne_zero_of_lt hfuel)
    obtain ⟨hitem, hitems⟩ := List.forall_mem_cons.mp hreads
    cases items with
    | nil =>
      have htext := congrArg List.length (textItems_last item [])
      simp only [List.append_nil] at htext
      rw [textItems_last]
      exact readItems_last (hitem _ _ (by omega) (by simp [Follows]))
    | cons next items =>
      have htext := congrArg List.length (textItems_next item next items [])
      simp only [List.append_nil, List.length_append, List.length_cons] at htext
      rw [textItems_next]
      exact readItems_next (hitem _ _ (by omega) (by simp [Follows])) (ih hitems nofun (by omega))

theorem readMembers_text {members : List (String × Json)} (hreads : ∀ e ∈ members, Reads e.2) (hne : members ≠ [])
    {fuel : Nat} (hfuel : 2 * (String.intercalate "," (textMembers members)).toList.length < fuel) (rest : List Char) :
    readMembers fuel ((String.intercalate "," (textMembers members)).toList ++ '\x7d' :: rest) =
      .ok (ofJsonMembers members, rest) := by
  induction members generalizing fuel with
  | nil => exact absurd rfl hne
  | cons member members ih =>
    obtain ⟨key, value⟩ := member
    obtain ⟨fuel, rfl⟩ := Nat.exists_eq_add_one_of_ne_zero (Nat.ne_zero_of_lt hfuel)
    obtain ⟨hvalue, hmembers⟩ : Reads value ∧ ∀ e ∈ members, Reads e.2 := List.forall_mem_cons.mp hreads
    cases members with
    | nil =>
      have htext := congrArg List.length (textMembers_last key value [])
      simp only [List.append_nil, List.length_append, List.length_cons] at htext
      rw [textMembers_last, readMembers_last (hvalue _ _ (by omega) (by simp [Follows])), String.ofList_toList]
      rfl
    | cons next members =>
      have htext := congrArg List.length (textMembers_next key value next members [])
      simp only [List.append_nil, List.length_append, List.length_cons] at htext
      rw [textMembers_next, readMembers_next (hvalue _ _ (by omega) (by simp [Follows]))
        (ih hmembers nofun (by omega)), String.ofList_toList]
      rfl

theorem textItems_eq_cons {item : Json} (h : item.Exact) (items : List Json) (rest : List Char) :
    ∃ c after, (String.intercalate "," (textItems (item :: items))).toList ++ rest = c :: after ∧
      isBlank c = false ∧ c ≠ ']' := by
  obtain ⟨c, cs, htext, hc⟩ := text_eq_cons h
  cases items with
  | nil => exact ⟨c, _, by rw [textItems_last, htext, List.cons_append], hc⟩
  | cons next items => exact ⟨c, _, by rw [textItems_next, htext, List.cons_append], hc⟩

theorem reads_arr {items : List Json} (h : ExactItems items) (hreads : ∀ j ∈ items, Reads j) : Reads (.arr items) := by
  intro fuel rest hfuel _
  have htext := congrArg List.length (text_arr items [])
  simp only [List.append_nil, List.length_append, List.length_cons, List.length_nil] at htext
  obtain ⟨fuel, rfl⟩ := Nat.exists_eq_add_one_of_ne_zero (show fuel ≠ 0 by omega)
  rw [text_arr]
  cases items with
  | nil => rfl
  | cons item items =>
    have hread := readItems_text hreads nofun (show _ < fuel by omega) rest
    obtain ⟨c, after, hstart, hblank, hc⟩ := textItems_eq_cons h.1 items (']' :: rest)
    rw [hstart] at hread ⊢
    exact readValue_arr hblank hc hread

/-- An object ends with its brace, whatever follows. -/
theorem readValue_text_obj {members : List (String × Json)} (hreads : ∀ e ∈ members, Reads e.2) {fuel : Nat}
    (hfuel : 2 * (text (.obj members)).toList.length ≤ fuel) (rest : List Char) :
    readValue fuel ((text (.obj members)).toList ++ rest) = .ok (ofJson (.obj members), rest) := by
  have htext := congrArg List.length (text_obj members [])
  simp only [List.append_nil, List.length_append, List.length_cons, List.length_nil] at htext
  obtain ⟨fuel, rfl⟩ := Nat.exists_eq_add_one_of_ne_zero (show fuel ≠ 0 by omega)
  rw [text_obj]
  cases members with
  | nil => rfl
  | cons member members =>
    have hread := readMembers_text hreads nofun (show _ < fuel by omega) rest
    cases members with
    | nil =>
      rw [textMembers_last] at hread ⊢
      exact readValue_obj hread
    | cons next members =>
      rw [textMembers_next] at hread ⊢
      exact readValue_obj hread

theorem reads_obj {members : List (String × Json)} (hreads : ∀ e ∈ members, Reads e.2) : Reads (.obj members) :=
  fun _ rest hfuel _ => readValue_text_obj hreads hfuel rest

theorem reads_int {n : Int} (h : Fits n) : Reads (.int n) := by
  intro fuel rest hfuel hrest
  obtain ⟨c, cs, htext, hc⟩ := intText_eq_cons n
  have hlength : 2 * (intText n).toList.length ≤ fuel := hfuel
  obtain ⟨fuel, rfl⟩ := Nat.exists_eq_add_one_of_ne_zero (show fuel ≠ 0 by simp [htext] at hlength; omega)
  have hnumber := readNumber_intText h hrest
  show readValue (fuel + 1) ((intText n).toList ++ rest) = _
  rw [htext, List.cons_append] at hnumber ⊢
  rw [readValue_number hc, hnumber]
  rfl

theorem reads_str (s : String) : Reads (.str s) := by
  intro fuel rest hfuel _
  have hlength : 2 * (quoted s).toList.length ≤ fuel := hfuel
  obtain ⟨fuel, rfl⟩ := Nat.exists_eq_add_one_of_ne_zero (show fuel ≠ 0 by simp [quoted_toList] at hlength; omega)
  show readValue (fuel + 1) ((quoted s).toList ++ rest) = _
  rw [quoted_toList, List.cons_append, List.append_assoc]
  exact (readValue_str s.toList rest).trans (by rw [String.ofList_toList]; rfl)

theorem reads_null : Reads .null := by
  intro fuel rest hfuel _
  have hlength : 2 * 4 ≤ fuel := hfuel
  obtain ⟨fuel, rfl⟩ := Nat.exists_eq_add_one_of_ne_zero (show fuel ≠ 0 by omega)
  exact (readValue_word rest).1

theorem reads_bool (b : Bool) : Reads (.bool b) := by
  intro fuel rest hfuel _
  have hlength : 4 ≤ (text (.bool b)).toList.length := by cases b <;> decide
  obtain ⟨fuel, rfl⟩ := Nat.exists_eq_add_one_of_ne_zero (show fuel ≠ 0 by omega)
  exact (readValue_word rest).2 b

mutual

/-- An exact value is read from its text. -/
theorem reads_of_exact : ∀ j : Json, j.Exact → Reads j
  | .null, _ => reads_null
  | .bool b, _ => reads_bool b
  | .int _, h => reads_int h
  | .str s, _ => reads_str s
  | .arr items, h => reads_arr h (reads_of_exactItems items h)
  | .obj members, h => reads_obj (reads_of_exactMembers members h)

theorem reads_of_exactItems : ∀ items : List Json, ExactItems items → ∀ j ∈ items, Reads j
  | [], _ => nofun
  | item :: rest, h => List.forall_mem_cons.mpr ⟨reads_of_exact item h.1, reads_of_exactItems rest h.2⟩

theorem reads_of_exactMembers : ∀ members : List (String × Json), ExactMembers members → ∀ e ∈ members, Reads e.2
  | [], _ => nofun
  | (_, value) :: rest, h => List.forall_mem_cons.mpr ⟨reads_of_exact value h.1, reads_of_exactMembers rest h.2⟩

end

/-- The text of a value without floats is the source of the value. -/
theorem ofText_text {j : Json} (h : j.Exact) : ofText j.text = .ok (ofJson j) := by
  have hread := reads_of_exact j h (2 * j.text.toList.length + 1) [] (by omega) nofun
  rw [List.append_nil] at hread
  simp only [ofText, hread, skipBlanks]

end Source

/-- A record is read from its text as it is read from its value. -/
theorem decodeText_text {α : Type} (decode : Source → Except Mismatch α) {j : Json} (h : j.Exact) :
    decodeText decode j.text = decode (Source.ofJson j) := by
  rw [decodeText, Source.ofText_text h]

end RecordFilter.Json
