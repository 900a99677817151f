import Mathlib.Data.String.Basic
import RecordFilter.Proofs.Calendar.Dates
import RecordFilter.Sql.Alias

/-! Aliases are identifiers of at most 63 bytes. A name that is longer is cut between two characters, where the room for
    it ends or up to three bytes before, and its checksum stands for the rest. Stepping back over the bytes to the end
    of a character finds that place, and never runs out of them. -/

namespace RecordFilter.Sql
open String.Pos

/-! ### Fronts of texts -/

/-- After the longest front of at most `room` bytes comes a character that does not fit. -/
theorem takeBytes_append (room : Nat) (cs : List Char) : ∃ back, takeBytes room cs ++ back = cs ∧
    String.utf8Len (takeBytes room cs) ≤ room ∧
    ∀ c ∈ back.head?, room < String.utf8Len (takeBytes room cs) + c.utf8Size := by
  induction cs generalizing room with
  | nil => exact ⟨[], rfl, by simp [takeBytes], nofun⟩
  | cons c rest ih =>
    unfold takeBytes
    split
    · rename_i hroom
      obtain ⟨back, happend, hle, hnext⟩ := ih (room - c.utf8Size)
      refine ⟨back, by rw [List.cons_append, happend], ?_, fun d hd => ?_⟩
      · rw [String.utf8Len_cons]
        omega
      · have := hnext d hd
        rw [String.utf8Len_cons]
        omega
    · rename_i hroom
      refine ⟨c :: rest, rfl, by simp, fun d hd => ?_⟩
      obtain rfl : c = d := by simpa using hd
      simpa using hroom

/-- The text goes on after `front` with `back`, whose first character does not fit into `room` bytes any more. -/
structure SplitsAt (text : String) (room : Nat) (front back : String) : Prop where
  append : text = front ++ back
  fits : front.utf8ByteSize ≤ room
  full : ∀ c ∈ back.toList.head?, room < front.utf8ByteSize + c.utf8Size

theorem exists_splitsAt (room : Nat) (text : String) :
    ∃ back, SplitsAt text room (String.ofList (takeBytes room text.toList)) back := by
  obtain ⟨back, happend, hfits, hfull⟩ := takeBytes_append room text.toList
  rw [← String.utf8ByteSize_ofList] at hfits hfull
  refine ⟨String.ofList back, ?_, hfits, by simpa using hfull⟩
  rw [← String.ofList_append, happend, String.ofList_toList]

theorem utf8ByteSize_of_append {s a : String} {more : List Char} (h : s.toList = a.toList ++ more) :
    s.utf8ByteSize = a.utf8ByteSize + String.utf8Len more := by
  have hs : s = a ++ String.ofList more := String.toList_inj.mp (by simp [h])
  rw [hs, String.utf8ByteSize_append, String.utf8ByteSize_ofList]

/-- At most three bytes are left over, since no character takes more than four. -/
theorem SplitsAt.lt_add_four {text front back : String} {room : Nat} (h : SplitsAt text room front back)
    (hlong : room < text.utf8ByteSize) : room < front.utf8ByteSize + 4 := by
  have hsize : text.utf8ByteSize = front.utf8ByteSize + String.utf8Len back.toList :=
    utf8ByteSize_of_append (by simp [h.append])
  have hfits := h.fits
  cases hback : back.toList with
  | nil =>
    rw [hback, String.utf8Len_nil] at hsize
    omega
  | cons c rest =>
    have hfull := h.full c (by simp [hback])
    have hchar := c.utf8Size_le_four
    omega

/-! ### Stepping back over bytes -/

/-- The first bytes of a text, if a character ends there. -/
def front? (text : String) (cut : Nat) : Option String :=
  if h : Raw.IsValid text ⟨cut⟩ then some (text.sliceTo ⟨⟨cut⟩, h⟩).copy else none

/-- Steps back from a number of bytes to the end of a character. From the start there is no step back. -/
def stepBack? (text : String) : Nat → Option Nat
  | 0 => if Raw.isValid text ⟨0⟩ then some 0 else none
  | cut + 1 => if Raw.isValid text ⟨cut + 1⟩ then some (cut + 1) else stepBack? text cut

section
variable {text front back : String} {room : Nat}

theorem isValid_append (front back : String) : Raw.IsValid (front ++ back) ⟨front.utf8ByteSize⟩ :=
  Raw.isValid_iff_exists_append.mpr ⟨front, back, rfl, rfl⟩

theorem front?_append (front back : String) : front? (front ++ back) front.utf8ByteSize = some front := by
  have hvalid := isValid_append front back
  have hsplits : Splits (s := front ++ back) ⟨⟨front.utf8ByteSize⟩, hvalid⟩ front back := ⟨rfl, rfl⟩
  rw [front?, dif_pos hvalid, hsplits.copy_sliceTo_eq]

/-- Past the front and within the room, no character ends. -/
theorem SplitsAt.not_isValid (h : SplitsAt text room front back) (hpast : front.utf8ByteSize < room) :
    ¬Raw.IsValid text ⟨room⟩ := by
  intro hvalid
  obtain ⟨s, t, hsplit, hroom⟩ := Raw.isValid_iff_exists_append.mp hvalid
  obtain rfl : room = s.utf8ByteSize := congrArg Raw.byteIdx hroom
  have hlists := congrArg String.toList (h.append.symm.trans hsplit)
  rw [String.toList_append, String.toList_append, List.append_eq_append_iff] at hlists
  rcases hlists with ⟨more, hs, hback⟩ | ⟨more, hs, -⟩
  · have hsize := utf8ByteSize_of_append hs
    cases more with
    | nil =>
      rw [String.utf8Len_nil] at hsize
      omega
    | cons c rest =>
      have hfull := h.full c (by simp [hback])
      rw [String.utf8Len_cons] at hsize
      omega
  · have hsize := utf8ByteSize_of_append hs
    omega

theorem SplitsAt.stepBack?_eq (h : SplitsAt text room front back) : stepBack? text room = some front.utf8ByteSize := by
  have hvalid : Raw.isValid text ⟨front.utf8ByteSize⟩ = true :=
    Raw.isValid_eq_true_iff.mpr (h.append ▸ isValid_append front back)
  induction room with
  | zero =>
    have hzero : front.utf8ByteSize = 0 := Nat.le_zero.mp h.fits
    rw [hzero] at hvalid ⊢
    exact if_pos hvalid
  | succ room ih =>
    rcases Nat.eq_or_lt_of_le h.fits with hend | hpast
    · rw [hend] at hvalid ⊢
      exact if_pos hvalid
    · have hback : SplitsAt text room front back :=
        ⟨h.append, Nat.le_of_lt_succ hpast, fun c hc => Nat.lt_of_succ_lt (h.full c hc)⟩
      have hnot : ¬Raw.isValid text ⟨room + 1⟩ = true := fun hat => h.not_isValid hpast (Raw.isValid_eq_true_iff.mp hat)
      exact (if_neg hnot).trans (ih hback)

/-- From inside of a character of four bytes it is three steps back at most. -/
example : stepBack? "x😀y" 4 = some 1 := by decide

end

/-! ### Short forms of names -/

/-- A short form of a name: the name itself if it takes at most 63 bytes, or else 50 to 53 bytes from the front of it, two
    underscores and eight digits. -/
inductive Abbreviates (name : String) : String → Prop
  | whole : name.utf8ByteSize ≤ 63 → Abbreviates name name
  | cut {front back digits : String} : 63 < name.utf8ByteSize → name = front ++ back → 50 ≤ front.utf8ByteSize →
      front.utf8ByteSize ≤ 53 → digits.length = 8 → (∀ c ∈ digits.toList, Text.IsLowerHex c) →
      Abbreviates name (front ++ "__" ++ digits)

theorem utf8Size_of_isLowerHex {c : Char} (h : Text.IsLowerHex c) : c.utf8Size = 1 := by
  rw [Char.utf8Size_eq_one_iff, UInt32.le_iff_toNat_le]
  rcases h with h | ⟨-, h⟩
  · exact (Char.isDigit_iff_toNat.mp h).2.trans (by decide)
  · exact (UInt32.le_iff_toNat_le.mp h).trans (by decide)

theorem Abbreviates.le {name short : String} (h : Abbreviates name short) : short.utf8ByteSize ≤ 63 := by
  cases h with
  | whole hname => exact hname
  | @cut front back digits _ _ _ hfront hlength hdigits =>
    have hbytes := Text.utf8ByteSize_ofList fun c hc => utf8Size_of_isLowerHex (hdigits c hc)
    rw [String.ofList_toList, String.length_toList, hlength] at hbytes
    have hmark : "__".utf8ByteSize = 2 := rfl
    rw [String.utf8ByteSize_append, String.utf8ByteSize_append, hbytes, hmark]
    omega

/-- A name shortened byte by byte. There is no result where the checksum takes more than the room there is, where
    stepping back runs out of bytes, or where the place to cut is inside of a character. -/
def shortenBytes? (name : String) : Option String :=
  if name.utf8ByteSize ≤ maxAlias then some name
  else if maxAlias < (Text.checksum name).length + 2 then none
  else do
    let cut ← stepBack? name (maxAlias - (Text.checksum name).length - 2)
    let front ← front? name cut
    return front ++ "__" ++ String.ofList (Text.checksum name)

theorem shorten_abbreviates (name : String) :
    shortenBytes? name = some (shorten name) ∧ Abbreviates name (shorten name) := by
  by_cases hname : name.utf8ByteSize ≤ maxAlias
  · rw [shortenBytes?, shorten, if_pos hname, if_pos hname]
    exact ⟨rfl, .whole hname⟩
  have hshort : shorten name = String.ofList (takeBytes (maxAlias - 10) name.toList) ++ "__" ++
      String.ofList (Text.checksum name) := by
    rw [shorten, if_neg hname, String.ofList_append, String.ofList_append]
  have hlength : (Text.checksum name).length = 8 := Text.length_checksum name
  obtain ⟨back, hsplit⟩ := exists_splitsAt (maxAlias - 10) name
  rw [hshort]
  refine ⟨?_, .cut (Nat.lt_of_not_le hname) hsplit.append ?_ hsplit.fits ?_ ?_⟩
  · have hcut : stepBack? name (maxAlias - 8 - 2) = _ := hsplit.stepBack?_eq
    have hfront : front? name _ = _ := (congrArg (front? · _) hsplit.append).trans (front?_append _ back)
    have hroom : ¬maxAlias < 8 + 2 := by decide
    rw [shortenBytes?, if_neg hname, hlength, if_neg hroom, hcut, Option.bind_eq_bind, Option.bind_some, hfront]
    rfl
  · have hlow := hsplit.lt_add_four (by simp only [maxAlias] at hname ⊢; omega)
    simp only [maxAlias] at hlow ⊢
    omega
  · rw [String.length_ofList, hlength]
  · rw [String.toList_ofList]
    exact fun c hc => Text.isLowerHex_of_mem_hexDigits hc

end RecordFilter.Sql
