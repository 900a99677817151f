import RecordFilter.Domain.Format
import Mathlib.Data.List.Forall2

/-! Domains as JSON. The values that are read as a domain are the lists of forms of tokens, and a form stands for one
    token. What is written for a domain that was read is the value it was read from with each operator under its own
    symbol; it is read as the same domain. The forms of the two constants stand for nothing else. -/

namespace RecordFilter

namespace Operator

/-! ### Symbols in any case -/

/-- The lower case of a symbol. -/
def lower (symbol : String) : String := String.ofList (symbol.toList.map lowerChar)

/-- The symbols that leaves are written with, in lower case. -/
def Known (symbol : String) : Prop := symbol = "<>" ∨ ∃ op : Operator, symbol = op.symbol

/-- The operator's own symbol, in place of another way to write it. -/
def canonical (symbol : String) : String := if lower symbol = "<>" then "!=" else lower symbol

theorem ofSymbol?_eq_none {s : String} (h : ∀ op : Operator, s ≠ op.symbol) (hne : s ≠ "<>") :
    ofSymbol? s = none := by
  unfold ofSymbol?
  rw [if_neg (c := s = "=") (h .eq), if_neg (c := s = "!=" ∨ s = "<>") (not_or.mpr ⟨h .ne, hne⟩),
    if_neg (c := s = "<") (h .lt), if_neg (c := s = "<=") (h .le), if_neg (c := s = ">") (h .gt),
    if_neg (c := s = ">=") (h .ge), if_neg (c := s = "=?") (h .eqIfSet), if_neg (c := s = "=like") (h .eqLike),
    if_neg (c := s = "=ilike") (h .eqIlike), if_neg (c := s = "like") (h .like),
    if_neg (c := s = "not like") (h .notLike), if_neg (c := s = "ilike") (h .ilike),
    if_neg (c := s = "not ilike") (h .notIlike), if_neg (c := s = "in") (h .within),
    if_neg (c := s = "not in") (h .notIn), if_neg (c := s = "child_of") (h .childOf),
    if_neg (c := s = "parent_of") (h .parentOf)]

theorem symbol_inj {op op' : Operator} (h : op.symbol = op'.symbol) : op = op' := by
  have hread := ofSymbol?_symbol op
  rw [h, ofSymbol?_symbol] at hread
  exact (Option.some.inj hread).symm

theorem symbol_ne_unequal (op : Operator) : op.symbol ≠ "<>" := by
  cases op <;> decide

theorem ofSymbol?_eq_some_iff {s : String} {op : Operator} :
    ofSymbol? s = some op ↔ s = op.symbol ∨ s = "<>" ∧ op = .ne := by
  constructor
  · intro h
    by_cases hother : s = "<>"
    · subst hother
      exact .inr ⟨rfl, (Option.some.inj h).symm⟩
    · by_cases hknown : ∃ op' : Operator, s = op'.symbol
      · obtain ⟨op', rfl⟩ := hknown
        rw [ofSymbol?_symbol] at h
        exact .inl (congrArg symbol (Option.some.inj h))
      · rw [ofSymbol?_eq_none (not_exists.mp hknown) hother] at h
        cases h
  · rintro (rfl | ⟨rfl, rfl⟩)
    · exact ofSymbol?_symbol op
    · rfl

@[simp]
theorem lower_symbol (op : Operator) : lower op.symbol = op.symbol := by
  cases op <;> decide

theorem canonical_symbol (op : Operator) : canonical op.symbol = op.symbol := by
  unfold canonical
  rw [lower_symbol, if_neg op.symbol_ne_unequal]

theorem known_symbol (op : Operator) : Known op.symbol := .inr ⟨op, rfl⟩

/-- A symbol is read as the operator whose own symbol stands in its place. -/
theorem ofAnyCase?_eq_some_iff {s : String} {op : Operator} :
    ofAnyCase? s = some op ↔ Known (lower s) ∧ canonical s = op.symbol := by
  have hread : ofAnyCase? s = ofSymbol? (lower s) := rfl
  rw [hread, ofSymbol?_eq_some_iff]
  unfold canonical
  by_cases hother : lower s = "<>"
  · rw [if_pos hother, hother]
    constructor
    · rintro (h | ⟨-, rfl⟩)
      · exact absurd h.symm op.symbol_ne_unequal
      · exact ⟨.inl rfl, rfl⟩
    · rintro ⟨-, h⟩
      have hsymbol : op.symbol = Operator.ne.symbol := h.symm
      exact .inr ⟨rfl, symbol_inj hsymbol⟩
  · rw [if_neg hother]
    constructor
    · rintro (h | ⟨h, -⟩)
      · exact ⟨.inr ⟨op, h⟩, h⟩
      · exact absurd h hother
    · rintro ⟨-, h⟩
      exact .inl h

theorem known_lower_iff {s : String} : Known (lower s) ↔ ∃ op, ofAnyCase? s = some op := by
  simp only [ofAnyCase?_eq_some_iff, exists_and_left, iff_self_and]
  unfold canonical
  rintro (hother | ⟨op, hown⟩)
  · exact ⟨.ne, by rw [if_pos hother]; rfl⟩
  · exact ⟨op, by rw [hown, if_neg op.symbol_ne_unequal]⟩

theorem eq_equals_of_toLower {c : Char} (h : c.toLower = '=') : c = '=' := by
  unfold Char.toLower at h
  split at h
  case isFalse => exact h
  case isTrue hcapital =>
    -- The lower case of a capital stands 32 places above it, and `=` has the code 61.
    have hlow : 65 ≤ c.val.toNat := hcapital.1
    have hhigh : c.val.toNat ≤ 90 := hcapital.2
    have hcode : (c.val + ('a'.val - 'A'.val)).toNat = 61 := congrArg (·.val.toNat) h
    have hshift : ('a'.val - 'A'.val).toNat = 32 := rfl
    rw [UInt32.toNat_add, hshift] at hcode
    omega

/-- The equals sign is written in one way. -/
theorem eq_equals_of_lower {s : String} (h : lower s = "=") : s = "=" := by
  have hchars : s.toList.map lowerChar = ['='] := by
    simpa [lower] using congrArg String.toList h
  obtain ⟨c, hs, hc⟩ := List.map_eq_singleton_iff.mp hchars
  have heq : c = '=' := by
    unfold lowerChar at hc
    split at hc
    · cases hc
    · exact eq_equals_of_toLower hc
  subst heq
  exact String.toList_inj.mp hs

theorem ofAnyCase?_eq_some_eq {s : String} : ofAnyCase? s = some .eq ↔ s = "=" := by
  constructor
  · intro h
    rcases ofSymbol?_eq_some_iff.mp h with h | ⟨-, h⟩
    · exact eq_equals_of_lower h
    · cases h
  · rintro rfl
    rfl

end Operator

/-! ### The form of a token -/

/-- The values that stand for a token. -/
inductive Json.Denotes : Json → Token → Prop
  | and : Denotes (.str "&") .and
  | or : Denotes (.str "|") .or
  | not : Denotes (.str "!") .not
  | true : Denotes (.arr [.int 1, .str "=", .int 1]) .true
  | false : Denotes (.arr [.int 0, .str "=", .int 1]) .false
  | leaf {path symbol : String} {op : Operator} {right : Json} (hpath : path ≠ "")
      (hop : Operator.ofAnyCase? symbol = some op) :
      Denotes (.arr [.str path, .str symbol, right]) (.leaf ⟨path, op, .value right⟩)

/-- The grammar of tokens: the symbols of the three connectives, and the lists of three items for leaves and for the
    two constants. -/
def Json.IsToken : Json → Prop
  | .str symbol => symbol = "&" ∨ symbol = "|" ∨ symbol = "!"
  | .arr [left, .str symbol, right] =>
    Operator.Known (Operator.lower symbol) ∧
      ((∃ path, left = .str path ∧ path ≠ "") ∨
        ((left = .int 0 ∨ left = .int 1) ∧ symbol = "=" ∧ right = .int 1))
  | _ => False

/-- The form of a token with the operator under its own symbol. -/
def Json.canonicalToken : Json → Json
  | .arr [left, .str symbol, right] => .arr [left, .str (Operator.canonical symbol), right]
  | item => item

theorem Json.int64?_eq_some {v : Json} {n : Int} (h : v.int64? = some n) : v = .int n := by
  cases v with
  | int m =>
    rw [int64?] at h
    split_ifs at h
    rw [Option.some.inj h]
  | _ => cases h

theorem Json.isToken_iff {item : Json} : item.IsToken ↔ ∃ token, item.Denotes token := by
  constructor
  · intro h
    unfold IsToken at h
    split at h
    · rcases h with rfl | rfl | rfl
      exacts [⟨_, .and⟩, ⟨_, .or⟩, ⟨_, .not⟩]
    · obtain ⟨hknown, ⟨path, rfl, hpath⟩ | ⟨rfl | rfl, rfl, rfl⟩⟩ := h
      · obtain ⟨op, hop⟩ := Operator.known_lower_iff.mp hknown
        exact ⟨_, .leaf hpath hop⟩
      exacts [⟨_, .false⟩, ⟨_, .true⟩]
    · exact h.elim
  · rintro ⟨token, h⟩
    cases h with
    | and => exact .inl rfl
    | or => exact .inr (.inl rfl)
    | not => exact .inr (.inr rfl)
    | true => exact ⟨Operator.known_symbol .eq, .inr ⟨.inr rfl, rfl, rfl⟩⟩
    | false => exact ⟨Operator.known_symbol .eq, .inr ⟨.inl rfl, rfl, rfl⟩⟩
    | leaf hpath hop => exact ⟨Operator.known_lower_iff.mpr ⟨_, hop⟩, .inl ⟨_, rfl, hpath⟩⟩

namespace Token

theorem ofConstant_eq_ok {source n : Json} {token : Token} (h : ofConstant source n = .ok token) :
    (n = .int 1 ∧ token = .true) ∨ (n = .int 0 ∧ token = .false) := by
  unfold ofConstant at h
  split at h
  case h_1 hone =>
    cases h
    exact .inl ⟨Json.int64?_eq_some hone, rfl⟩
  case h_2 hzero =>
    cases h
    exact .inr ⟨Json.int64?_eq_some hzero, rfl⟩
  case h_3 => cases h

theorem ofItems_eq_ok {source left op right : Json} {token : Token} (h : ofItems source left op right = .ok token) :
    Json.Denotes (.arr [left, op, right]) token := by
  unfold ofItems at h
  split at h
  case h_2 => cases h
  case h_1 symbol =>
    split at h
    case h_1 => cases h
    case h_2 read hread =>
      split at h
      case h_1 path _ _ =>
        split at h
        · cases h
        · cases h
          exact .leaf ‹_› hread
      case h_2 n =>
        obtain rfl := Operator.ofAnyCase?_eq_some_eq.mp hread
        obtain ⟨hn, rfl⟩ | ⟨hn, rfl⟩ := ofConstant_eq_ok h
        · cases hn
          exact .true
        · cases hn
          exact .false
      case h_3 => obtain ⟨hn, -⟩ | ⟨hn, -⟩ := ofConstant_eq_ok h <;> cases hn
      case h_4 => cases h

/-- A token is read from the values that stand for it. -/
theorem ofJson_eq_ok_iff {item : Json} {token : Token} : ofJson item = .ok token ↔ item.Denotes token := by
  constructor
  · intro h
    unfold ofJson at h
    split at h
    · split_ifs at h with hand hor hnot
      · cases h
        exact hand ▸ .and
      · cases h
        exact hor ▸ .or
      · cases h
        exact hnot ▸ .not
    · exact ofItems_eq_ok h
    · cases h
    · cases h
  · intro h
    cases h with
    | leaf hpath hop => simp [ofJson, ofItems, hop, hpath]
    | _ => rfl

/-- A token is written as the form it was read from, with the operator under its own symbol. -/
theorem toJson_of_denotes {item : Json} {token : Token} (h : item.Denotes token) :
    token.toJson = item.canonicalToken := by
  cases h with
  | leaf _ hop => rw [toJson, Json.canonicalToken, (Operator.ofAnyCase?_eq_some_iff.mp hop).2]; rfl
  | true => rw [toJson, Json.canonicalToken, show Operator.canonical "=" = "=" from Operator.canonical_symbol .eq]
  | false => rw [toJson, Json.canonicalToken, show Operator.canonical "=" = "=" from Operator.canonical_symbol .eq]
  | _ => rfl

theorem denotes_toJson {item : Json} {token : Token} (h : item.Denotes token) : token.toJson.Denotes token := by
  cases h with
  | leaf hpath _ => exact .leaf hpath (Operator.ofAnyCase?_eq_some_iff.mpr
      ⟨by rw [Operator.lower_symbol]; exact Operator.known_symbol _, Operator.canonical_symbol _⟩)
  | and => exact .and
  | or => exact .or
  | not => exact .not
  | true => exact .true
  | false => exact .false

/-- Only the form of the constant is read as the constant. -/
theorem eq_true_iff {item : Json} {token : Token} (h : item.Denotes token) :
    token = .true ↔ item = Token.true.toJson := by
  cases h <;> simp [toJson]

theorem eq_false_iff {item : Json} {token : Token} (h : item.Denotes token) :
    token = .false ↔ item = Token.false.toJson := by
  cases h <;> simp [toJson]

/-- No leaf is written as one of the constants. -/
theorem toJson_leaf_ne (l : Leaf) :
    (Token.leaf l).toJson ≠ Token.true.toJson ∧ (Token.leaf l).toJson ≠ Token.false.toJson := by
  simp [toJson]

end Token

/-! ### Domains -/

/-- The grammar of domains: the lists of forms of tokens. -/
def Json.IsDomain (v : Json) : Prop := ∃ items, v = .arr items ∧ ∀ item ∈ items, item.IsToken

/-- The form of a domain with each operator under its own symbol. -/
def Json.canonicalDomain : Json → Json
  | .arr items => .arr (items.map canonicalToken)
  | v => v

namespace Domain

theorem ofItems_eq_ok_iff {items : List Json} {d : Domain} :
    ofItems items = .ok d ↔ List.Forall₂ Json.Denotes items d := by
  induction items generalizing d with
  | nil => simp [ofItems, eq_comm]
  | cons item rest ih =>
    unfold ofItems
    constructor
    · intro h
      split at h
      · cases h
      · rename_i token htoken
        split at h
        · cases h
        · rename_i tokens htokens
          cases h
          exact .cons (Token.ofJson_eq_ok_iff.mp htoken) (ih.mp htokens)
    · intro h
      cases h with
      | cons htoken htokens => simp only [Token.ofJson_eq_ok_iff.mpr htoken, ih.mpr htokens]

/-- A domain is read from the lists of values that stand for its tokens. -/
theorem ofJson_eq_ok_iff {v : Json} {d : Domain} :
    ofJson v = .ok d ↔ ∃ items, v = .arr items ∧ List.Forall₂ Json.Denotes items d := by
  constructor
  · intro h
    unfold ofJson at h
    split at h
    · exact ⟨_, rfl, ofItems_eq_ok_iff.mp h⟩
    · cases h
  · rintro ⟨items, rfl, h⟩
    exact ofItems_eq_ok_iff.mpr h

theorem forall_isToken_iff {items : List Json} :
    (∀ item ∈ items, item.IsToken) ↔ ∃ d, List.Forall₂ Json.Denotes items d := by
  induction items with
  | nil => simp
  | cons item rest ih =>
    rw [List.forall_mem_cons, ih, Json.isToken_iff]
    constructor
    · rintro ⟨⟨token, htoken⟩, d, hd⟩
      exact ⟨token :: d, .cons htoken hd⟩
    · rintro ⟨d, hd⟩
      cases hd with
      | cons htoken hd => exact ⟨⟨_, htoken⟩, _, hd⟩

/-- The grammar is what is read. -/
theorem isDomain_iff {v : Json} : v.IsDomain ↔ ∃ d, ofJson v = .ok d := by
  constructor
  · rintro ⟨items, rfl, hitems⟩
    obtain ⟨d, hd⟩ := forall_isToken_iff.mp hitems
    exact ⟨d, ofJson_eq_ok_iff.mpr ⟨items, rfl, hd⟩⟩
  · rintro ⟨d, hd⟩
    obtain ⟨items, rfl, hread⟩ := ofJson_eq_ok_iff.mp hd
    exact ⟨items, rfl, forall_isToken_iff.mpr ⟨d, hread⟩⟩

theorem map_toJson_of_denotes {items : List Json} {d : Domain} (h : List.Forall₂ Json.Denotes items d) :
    d.map Token.toJson = items.map Json.canonicalToken := by
  induction h with
  | nil => rfl
  | cons htoken _ ih => rw [List.map_cons, List.map_cons, Token.toJson_of_denotes htoken, ih]

theorem ofJson_toJson_of_denotes {items : List Json} {d : Domain} (h : List.Forall₂ Json.Denotes items d) :
    ofJson d.toJson = .ok d := by
  refine ofJson_eq_ok_iff.mpr ⟨_, rfl, ?_⟩
  induction h with
  | nil => exact .nil
  | cons htoken _ ih => exact .cons (Token.denotes_toJson htoken) ih

/-- A value is read as a domain if and only if it follows the grammar. The domain is then written as the value with
    each operator under its own symbol, what is written is read as the same domain, and its tokens are the constants
    just where the value has their forms, which no leaf is written as. -/
theorem json_roundTrip (v : Json) :
    ((∃ d, ofJson v = .ok d) ↔ v.IsDomain) ∧
      (∀ d, ofJson v = .ok d →
        toJson d = v.canonicalDomain ∧ ofJson d.toJson = .ok d ∧
          ∃ items, v = .arr items ∧ List.Forall₂ (fun item token =>
            (token = .true ↔ item = Token.true.toJson) ∧ (token = .false ↔ item = Token.false.toJson)) items d) ∧
      ∀ l : Leaf, (Token.leaf l).toJson ≠ Token.true.toJson ∧ (Token.leaf l).toJson ≠ Token.false.toJson := by
  refine ⟨isDomain_iff.symm, fun d hd => ?_, Token.toJson_leaf_ne⟩
  obtain ⟨items, rfl, hread⟩ := ofJson_eq_ok_iff.mp hd
  refine ⟨?_, ofJson_toJson_of_denotes hread, items, rfl, ?_⟩
  · rw [toJson, Json.canonicalDomain, map_toJson_of_denotes hread]
  · exact hread.imp fun _ _ htoken => ⟨Token.eq_true_iff htoken, Token.eq_false_iff htoken⟩

/-- A filter with another way to write `!=`, an operator in capitals and a constant. -/
theorem json_roundTrip_capitals :
    let v : Json := .arr [.str "|", .arr [.str "name", .str "<>", .null], .str "!",
      .arr [.str "parent_id", .str "Child_OF", .int 1], .arr [.int 1, .str "=", .int 1]]
    let d : Domain := [.or, .leaf ⟨"name", .ne, .value .null⟩, .not, .leaf ⟨"parent_id", .childOf, .value (.int 1)⟩, .true]
    v.IsDomain ∧ ofJson v = .ok d ∧ ofJson d.toJson = .ok d ∧
      toJson d = .arr [.str "|", .arr [.str "name", .str "!=", .null], .str "!",
        .arr [.str "parent_id", .str "child_of", .int 1], .arr [.int 1, .str "=", .int 1]] := by
  intro v d
  have hread : ofJson v = .ok d := by rfl
  exact ⟨(json_roundTrip v).1.mp ⟨d, hread⟩, hread, ((json_roundTrip v).2.1 d hread).2.1,
    ((json_roundTrip v).2.1 d hread).1⟩

end Domain

end RecordFilter
