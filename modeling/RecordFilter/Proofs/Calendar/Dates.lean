import Mathlib.Algebra.Ring.Nat
import Mathlib.Data.List.TakeWhile
import RecordFilter.Calendar

/-! Days and times of the calendar. Days are ordered by year, month and day, and so are their numbers when all days are
    counted; times are ordered by the seconds that have gone by. A day or a time whose year has four digits has a text,
    and the text of a day is read back as the day. -/

namespace RecordFilter

namespace Date

/-! ### The order of days -/

instance : LT Date where
  lt a b := a.year < b.year ∨ a.year = b.year ∧ (a.month < b.month ∨ a.month = b.month ∧ a.day < b.day)

instance : LE Date where
  le a b := ¬b < a

variable {a b d : Date}

theorem lt_iff :
    a < b ↔ a.year < b.year ∨ a.year = b.year ∧ (a.month < b.month ∨ a.month = b.month ∧ a.day < b.day) := Iff.rfl

theorem lt_trichotomy (a b : Date) : a < b ∨ a = b ∨ b < a := by
  obtain ⟨y, m, n⟩ := a
  obtain ⟨y', m', n'⟩ := b
  simp only [lt_iff, Date.mk.injEq]
  omega

/-! ### Counting days -/

def daysInYear (year : Int) : Nat := if isLeapYear year then 366 else 365

/-- The days from the start of the year 0 to the start of a year; of four years one is a leap year, but of a hundred only
    every fourth. -/
def daysBeforeYear (year : Int) : Int := 365 * year + (year + 3) / 4 - (year + 99) / 100 + (year + 399) / 400

/-- The days of a year in the months before a month. -/
def daysBeforeMonth (year : Int) : Nat → Nat
  | 0 | 1 => 0
  | month + 2 => daysBeforeMonth year (month + 1) + daysInMonth year (month + 1)

/-- The number of a day when all days are counted. -/
def number (d : Date) : Int := daysBeforeYear d.year + daysBeforeMonth d.year d.month + d.day

theorem daysBeforeYear_succ (year : Int) : daysBeforeYear (year + 1) = daysBeforeYear year + daysInYear year := by
  unfold daysBeforeYear daysInYear isLeapYear
  simp only [Bool.and_eq_true, Bool.or_eq_true, decide_eq_true_eq]
  split <;> omega

theorem daysBeforeYear_mono {y y' : Int} (h : y ≤ y') : daysBeforeYear y ≤ daysBeforeYear y' := by
  unfold daysBeforeYear
  omega

theorem daysBeforeMonth_succ (year : Int) {month : Nat} (h : 1 ≤ month) :
    daysBeforeMonth year (month + 1) = daysBeforeMonth year month + daysInMonth year month := by
  obtain ⟨month, rfl⟩ := Nat.exists_eq_add_of_le' h
  rfl

theorem daysBeforeMonth_mono (year : Int) {m m' : Nat} (h : m ≤ m') :
    daysBeforeMonth year m ≤ daysBeforeMonth year m' := by
  induction h with
  | refl => exact Nat.le_refl _
  | @step m' _ ih =>
    refine Nat.le_trans ih ?_
    cases m' with
    | zero => exact Nat.le_refl 0
    | succ m' => exact Nat.le_add_right _ _

/-- The months make up the year. -/
theorem daysBeforeMonth_thirteen (year : Int) : daysBeforeMonth year 13 = daysInYear year := by
  simp only [daysBeforeMonth, daysInMonth, daysInYear]
  cases isLeapYear year <;> rfl

theorem isValid_iff :
    d.isValid ↔ 1 ≤ d.month ∧ d.month ≤ 12 ∧ 1 ≤ d.day ∧ d.day ≤ daysInMonth d.year d.month := by
  simp [isValid, and_assoc]

/-- A day lies within its month. -/
theorem number_le (h : d.isValid) :
    d.number ≤ daysBeforeYear d.year + daysBeforeMonth d.year (d.month + 1) := by
  obtain ⟨hmonth, -, -, hday⟩ := isValid_iff.mp h
  rw [number, daysBeforeMonth_succ _ hmonth]
  omega

theorem number_lt_number (ha : a.isValid) (hb : b.isValid) (h : a < b) : a.number < b.number := by
  obtain ⟨-, hmonth, -, -⟩ := isValid_iff.mp ha
  obtain ⟨-, -, hday, -⟩ := isValid_iff.mp hb
  have hle := number_le ha
  show a.number < daysBeforeYear b.year + daysBeforeMonth b.year b.month + b.day
  rcases lt_iff.mp h with hyear | ⟨hyear, hmonth' | ⟨hmonth', hday'⟩⟩
  · -- The months up to that of the first day are over before the next year starts.
    have hmonths : _ ≤ daysBeforeMonth a.year 13 := daysBeforeMonth_mono a.year (Nat.add_le_add_right hmonth 1)
    rw [daysBeforeMonth_thirteen] at hmonths
    have hyears := daysBeforeYear_mono (Int.add_one_le_of_lt hyear)
    rw [daysBeforeYear_succ] at hyears
    omega
  · have hmonths : daysBeforeMonth b.year (a.month + 1) ≤ _ := daysBeforeMonth_mono b.year hmonth'
    rw [hyear] at hle
    omega
  · rw [number, hyear, hmonth']
    omega

theorem number_lt_iff (ha : a.isValid) (hb : b.isValid) : a.number < b.number ↔ a < b := by
  refine ⟨fun h => ?_, number_lt_number ha hb⟩
  rcases lt_trichotomy a b with hlt | rfl | hgt
  · exact hlt
  · exact absurd h (Int.lt_irrefl _)
  · exact absurd h (Int.not_lt.mpr (Int.le_of_lt (number_lt_number hb ha hgt)))

theorem number_le_iff (ha : a.isValid) (hb : b.isValid) : a.number ≤ b.number ↔ a ≤ b :=
  Int.not_lt.symm.trans (not_congr (number_lt_iff hb ha))

end Date

/-! ### Numbers of a fixed width -/

namespace Text

/-- The last digits of a number, zeros in front where it has fewer. -/
def digits : Nat → Nat → List Char
  | 0, _ => []
  | width + 1, n => digits width (n / 10) ++ [Char.ofNat (48 + n % 10)]

theorem digit_facts : ∀ n < 10, isDigit (Char.ofNat (48 + n)) = true ∧ (Char.ofNat (48 + n)).toNat - 48 = n ∧
    isBlank (Char.ofNat (48 + n)) = false ∧ (Char.ofNat (48 + n)).utf8Size = 1 := by decide

theorem length_digits (width n : Nat) : (digits width n).length = width := by
  induction width generalizing n with
  | zero => rfl
  | succ width ih => rw [digits, List.length_append, ih, List.length_singleton]

theorem of_mem_digits {width n : Nat} {c : Char} (h : c ∈ digits width n) :
    ∃ k < 10, c = Char.ofNat (48 + k) := by
  induction width generalizing n with
  | zero => cases h
  | succ width ih =>
    rcases List.mem_append.mp h with h | h
    · exact ih h
    · exact ⟨n % 10, Nat.mod_lt n (by omega), List.mem_singleton.mp h⟩

theorem isDigit_of_mem_digits {width n : Nat} {c : Char} (h : c ∈ digits width n) : isDigit c = true := by
  obtain ⟨k, hk, rfl⟩ := of_mem_digits h
  exact (digit_facts k hk).1

/-- A text of characters of one byte has as many bytes as characters. -/
theorem utf8ByteSize_ofList {cs : List Char} (h : ∀ c ∈ cs, c.utf8Size = 1) :
    (String.ofList cs).utf8ByteSize = cs.length := by
  induction cs with
  | nil => rfl
  | cons c rest ih =>
    obtain ⟨hc, hrest⟩ := List.forall_mem_cons.mp h
    rw [← List.singleton_append, String.ofList_append, String.utf8ByteSize_append, ih hrest, List.length_append]
    exact congrArg (· + rest.length) ((String.utf8ByteSize_singleton (c := c)).trans hc)

end Text

namespace Date

theorem ofDigits_append (ds : List Char) (c : Char) : ofDigits (ds ++ [c]) = ofDigits ds * 10 + (c.toNat - 48) := by
  rw [ofDigits, ofDigits, List.foldl_append]
  rfl

theorem ofDigits_digits {width n : Nat} (h : n < 10 ^ width) : ofDigits (Text.digits width n) = n := by
  induction width generalizing n with
  | zero =>
    rw [Nat.pow_zero, Nat.lt_one_iff] at h
    rw [h]
    rfl
  | succ width ih =>
    have hfront : n / 10 < 10 ^ width := Nat.div_lt_of_lt_mul (by rwa [Nat.pow_succ, Nat.mul_comm] at h)
    have hlast := (Text.digit_facts (n % 10) (Nat.mod_lt n (by omega))).2.1
    rw [Text.digits, ofDigits_append, ih hfront, hlast]
    omega

/-- A number of a fixed width is read back, whatever comes behind it. -/
theorem readNumber?_digits (width : Nat) {n : Nat} (h : n < 10 ^ width) (hwidth : width ≠ 0) (rest : List Char) :
    readNumber? width (Text.digits width n ++ rest) = some (n, rest) := by
  have hskip : Text.skipBlanks (Text.digits width n ++ rest) = Text.digits width n ++ rest := by
    cases hdigits : Text.digits width n with
    | nil =>
      have hlength := Text.length_digits width n
      rw [hdigits] at hlength
      exact absurd hlength.symm hwidth
    | cons c others =>
      obtain ⟨k, hk, hc⟩ := Text.of_mem_digits (hdigits ▸ List.mem_cons_self : c ∈ Text.digits width n)
      rw [List.cons_append, Text.skipBlanks, hc, (Text.digit_facts k hk).2.2.1]
      rfl
  have htake : ((Text.digits width n ++ rest).take width).takeWhile Text.isDigit = Text.digits width n := by
    rw [List.take_left' (Text.length_digits width n), List.takeWhile_eq_self_iff]
    exact fun c hc => Text.isDigit_of_mem_digits hc
  have hne : (Text.digits width n).isEmpty = false := by
    rw [List.isEmpty_eq_false_iff, ← List.length_pos_iff, Text.length_digits]
    omega
  unfold readNumber?
  dsimp only
  rw [hskip, htake, hne, ofDigits_digits h, List.drop_left' rfl]
  rfl

/-! ### The texts of days -/

/-- Days of the calendar that can be written with four digits for the year. -/
structure Written (d : Date) : Prop where
  valid : d.isValid
  year_nonneg : 0 ≤ d.year
  year_lt : d.year < 10000

/-- The text of a day: year, month and day between hyphens. -/
def chars (d : Date) : List Char :=
  Text.digits 4 d.year.toNat ++ '-' :: (Text.digits 2 d.month ++ '-' :: Text.digits 2 d.day)

def text (d : Date) : String := String.ofList d.chars

theorem readYear?_digits {n : Nat} (h : n < 10000) (rest : List Char) :
    readYear? (Text.digits 4 n ++ rest) = some ((n : Int), rest) := by
  have hread := readNumber?_digits 4 h (by decide) rest
  obtain ⟨c, others, hcs, hc⟩ :
      ∃ c others, Text.digits 4 n ++ rest = c :: others ∧ Text.isDigit c ∧ Text.isBlank c = false := by
    obtain ⟨hdigit, -, hblank, -⟩ := Text.digit_facts (n / 10 / 10 / 10 % 10) (Nat.mod_lt _ (by omega))
    exact ⟨_, _, rfl, hdigit, hblank⟩
  rw [hcs] at hread ⊢
  unfold readYear?
  rw [Text.skipBlanks, hc.2]
  dsimp only
  split
  · rename_i heq
    cases heq
    cases hc.1
  · rename_i heq
    cases heq
    cases hc.1
  · rw [if_neg Bool.false_ne_true, hread]
    rfl

theorem ofChars?_chars {d : Date} (h : d.Written) : ofChars? d.chars = some d := by
  obtain ⟨-, hmonth, -, hday⟩ := isValid_iff.mp h.valid
  have hlast : d.day < 10 ^ 2 := by
    have : daysInMonth d.year d.month ≤ 31 := by
      unfold daysInMonth
      split
      · split <;> decide
      · split <;> decide
    omega
  have hyear : d.year.toNat < 10000 := by
    have := h.year_lt
    omega
  have hnat : (d.year.toNat : Int) = d.year := Int.toNat_of_nonneg h.year_nonneg
  have hsecond := readNumber?_digits 2 (by omega : d.month < 10 ^ 2) (by decide) ('-' :: Text.digits 2 d.day)
  have hthird := readNumber?_digits 2 hlast (by decide) []
  rw [List.append_nil] at hthird
  have hvalid := h.valid
  unfold ofChars? chars
  rw [readYear?_digits hyear, hnat]
  simp only [readHyphen?, Option.bind_some, hsecond, hthird, List.isEmpty_nil, Bool.true_and, hvalid, if_true]

theorem isDateText_text {d : Date} (h : d.Written) : isDateText d.text = true := by
  have hbytes : ∀ c ∈ d.chars, c.utf8Size = 1 := by
    have hdigit : ∀ {width n : Nat} {c : Char}, c ∈ Text.digits width n → c.utf8Size = 1 := fun hc => by
      obtain ⟨k, hk, rfl⟩ := Text.of_mem_digits hc
      exact (Text.digit_facts k hk).2.2.2
    intro c hc
    simp only [chars, List.mem_append, List.mem_cons] at hc
    rcases hc with hc | rfl | hc | rfl | hc
    · exact hdigit hc
    · rfl
    · exact hdigit hc
    · rfl
    · exact hdigit hc
  have hsize : d.text.utf8ByteSize = 10 := by
    rw [text, Text.utf8ByteSize_ofList hbytes]
    simp only [chars, List.length_append, List.length_cons, Text.length_digits]
  rw [isDateText, hsize, text, String.toList_ofList, ofChars?_chars h]
  rfl

end Date

/-! ### Times -/

/-- A time of a day of the calendar, to the second. -/
structure Timestamp where
  day : Date
  second : Nat
  valid : day.isValid
  second_lt : second < 86400

namespace Timestamp

/-- The seconds that have gone by. -/
def instant (t : Timestamp) : Int := 86400 * t.day.number + t.second

/-- The hour, the minute and the second within the minute, with colons between them. -/
def clockText (second : Nat) : String :=
  String.ofList (Text.digits 2 (second / 3600) ++ ':' :: (Text.digits 2 (second / 60 % 60) ++ ':' ::
    Text.digits 2 (second % 60)))

/-- The text of a time: the day and the clock. -/
def text (t : Timestamp) : String := t.day.text ++ " " ++ clockText t.second

/-- Reads from the text of a time how many seconds have gone by. -/
def instant? (s : String) : Option Int := do
  let day ← Date.ofChars? (s.toList.take 10)
  let (hour, rest) ← Date.readNumber? 2 (s.toList.drop 11)
  let (minute, rest) ← Date.readNumber? 2 (rest.drop 1)
  let (second, _) ← Date.readNumber? 2 (rest.drop 1)
  return 86400 * day.number + (3600 * hour + 60 * minute + second : Nat)

theorem instant?_text {t : Timestamp} (h : t.day.Written) : instant? t.text = some t.instant := by
  have hbound := t.second_lt
  have hlength : t.day.chars.length = 10 := by
    simp only [Date.chars, List.length_append, List.length_cons, Text.length_digits]
  have htext : t.text.toList = t.day.chars ++ ' ' :: (Text.digits 2 (t.second / 3600) ++
      ':' :: (Text.digits 2 (t.second / 60 % 60) ++ ':' :: (Text.digits 2 (t.second % 60) ++ []))) := by
    simp [text, Date.text, clockText]
  have hhour := Date.readNumber?_digits 2 (by omega : t.second / 3600 < 10 ^ 2) (by decide)
  have hminute := Date.readNumber?_digits 2 (by omega : t.second / 60 % 60 < 10 ^ 2) (by decide)
  have hsecond := Date.readNumber?_digits 2 (by omega : t.second % 60 < 10 ^ 2) (by decide)
  have htotal : 3600 * (t.second / 3600) + 60 * (t.second / 60 % 60) + t.second % 60 = t.second := by omega
  have htake : t.text.toList.take 10 = t.day.chars := by rw [htext, List.take_left' hlength]
  have hdrop : t.text.toList.drop 11 = Text.digits 2 (t.second / 3600) ++
      ':' :: (Text.digits 2 (t.second / 60 % 60) ++ ':' :: (Text.digits 2 (t.second % 60) ++ [])) := by
    rw [htext, List.drop_append, hlength, List.drop_eq_nil_of_le (by omega)]
    rfl
  rw [instant?, htake, hdrop, Date.ofChars?_chars h]
  simp only [Option.bind_eq_bind, Option.bind_some, hhour, hminute, hsecond, List.drop_succ_cons, List.drop_zero, htotal]
  rfl

/-- The first or the last second of a day. -/
def atEnd (d : Date) (valid : d.isValid) (last : Bool) : Timestamp where
  day := d
  second := if last then 86399 else 0
  valid := valid
  second_lt := by split <;> decide

variable {d : Date} (t : Timestamp) (hd : d.isValid)

/-- A time comes before the first second of a day just where it is on an earlier day. -/
theorem instant_lt_first : t.instant < (atEnd d hd false).instant ↔ t.day < d := by
  rw [← Date.number_lt_iff t.valid hd, instant, instant]
  have hsecond := t.second_lt
  show 86400 * t.day.number + t.second < 86400 * d.number + 0 ↔ _
  omega

/-- A time is not after the last second of a day just where it is not on a later day. -/
theorem instant_le_last : t.instant ≤ (atEnd d hd true).instant ↔ t.day ≤ d := by
  rw [← Date.number_le_iff t.valid hd, instant, instant]
  have hsecond := t.second_lt
  show 86400 * t.day.number + t.second ≤ 86400 * d.number + 86399 ↔ _
  omega

end Timestamp
end RecordFilter
