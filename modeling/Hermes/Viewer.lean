import Hermes.Lib.Fields
import Mathlib.Algebra.Ring.Nat

/-!
# The record and its viewer

At the end `AlienInvasion.BeginInvasion` writes a record of five fields, which the `handler` of
`civetwebapp.c` reads back. The writer is in Java, where a text is a list of 16-bit characters that a
charset turns into bytes; the reader is in C, where a text is a list of bytes up to a NUL.

The number of countries left is written with `write(int)`, which writes a character with that code and not
a number. So the viewer never shows it (`not_shows_finalRecord`).
-/

namespace Hermes

namespace Viewer

open Fields

/-! ### The writer -/

/-- What a `FileWriter` writes for a character, in a charset that extends ASCII. -/
structure AsciiCharset where
  encode : UInt16 → List UInt8
  ascii : ∀ c, c < 128 → encode c = [c.toUInt8]

/-- A digit of ASCII. -/
def IsDigit (b : UInt8) : Bool := 48 ≤ b && b ≤ 57

/-- A charset that extends ASCII, with at most two digits among the bytes of any other character: in
UTF-8 and ISO 8859 there are none, in GB18030 there are up to two. -/
structure Charset extends AsciiCharset where
  other : ∀ c, 128 ≤ c → (encode c).countP IsDigit ≤ 2

instance : Coe Charset AsciiCharset := ⟨Charset.toAsciiCharset⟩

/-- The characters of a text. -/
def chars (text : String) : List UInt16 := text.toList.map fun ch => ch.toNat.toUInt16

/-- `write(int)`: the character with the low 16 bits as its code. -/
def writeInt (n : ℕ) : List UInt16 := [n.toUInt16]

/-- `first_line_m`. -/
def firstLine : String := "Aliens population: "

/-- `second_line_m`. -/
def secondLine : String := "Human population: "

/-- `third_line_m`. -/
def thirdLine : String := "Number of Human countries: "

/-- `fourth_line_m`. -/
def fourthLine : String := "Human countries left: "

/-- `aWins_m` and `hWins_m`. -/
def winner (a : ℕ) : String := if a > 0 then "Aliens Win!" else "Humans Win!"

/-- The record: `a` aliens, `s` people, `o` countries at the beginning, and what is written for the
number of countries left. -/
def record (a s o : ℕ) (left : List UInt16) : List UInt16 :=
  chars firstLine ++ chars (toString a) ++ chars "," ++
    chars secondLine ++ chars (toString s) ++ chars "," ++
    chars thirdLine ++ chars (toString o) ++ chars "," ++
    chars fourthLine ++ left ++ chars "," ++
    chars (winner a) ++ chars "\n"

/-- The record at the end of `BeginInvasion`. -/
def finalRecord (a s o n : ℕ) : List UInt16 := record a s o (writeInt n)

/-- The file. -/
def file (charset : AsciiCharset) (text : List UInt16) : List UInt8 := text.flatMap charset.encode

/-! ### The reader -/

/-- The string in a buffer ends before the first NUL. -/
def cString (buffer : List UInt8) : List UInt8 := buffer.takeWhile (· ≠ 0)

/-- The texts that `handler` prints: `fgets` reads at most 1023 bytes at a time, up to a newline, and
`strtok` takes them apart at the commas. -/
def handler (file : List UInt8) : List (List UInt8) :=
  (readLines 10 1022 file).flatMap fun line => tokens 44 (cString line)

/-! ### The law -/

/-- The bytes of a text in ASCII. -/
def ascii (text : String) : List UInt8 := text.toList.map fun ch => ch.toNat.toUInt8

/-- The five fields. -/
def fields (a s o n : ℕ) (newline : List UInt8) : List (List UInt8) :=
  [ascii firstLine ++ ascii (toString a), ascii secondLine ++ ascii (toString s),
    ascii thirdLine ++ ascii (toString o),
    ascii fourthLine ++ ascii (toString n), ascii (winner a) ++ newline]

/-- The viewer shows the five fields of this file, up to the newline at the end. -/
def Shows (file : List UInt8) (a s o n : ℕ) : Prop :=
  handler file = fields a s o n [] ∨ handler file = fields a s o n (ascii "\n")

/-- The viewer shows nothing that is not in the file. -/
theorem handler_sublist (file : List UInt8) : (handler file).flatten.Sublist file :=
  flatMap_readLines_sublist
    (fun _ => flatten_tokens_sublist.trans (List.takeWhile_sublist _)) 10 1022 file

/-! ### What is text in the file -/

/-- A byte that neither ends nor separates a text. -/
def IsText (b : UInt8) : Bool := b ≠ 0 && b ≠ 10 && b ≠ 44

/-- A character of ASCII that neither ends nor separates a text. -/
def IsPlain (ch : Char) : Prop := ch.toNat < 128 ∧ IsText ch.toNat.toUInt8 = true

instance : DecidablePred IsPlain := fun _ => inferInstanceAs (Decidable (_ ∧ _))

/-- All characters of a text are plain. -/
def Plain (text : String) : Prop := ∀ ch ∈ text.toList, IsPlain ch

instance : DecidablePred Plain := fun text => List.decidableBAll IsPlain text.toList

variable {charset : AsciiCharset} {text : String}

theorem file_append (t u : List UInt16) : file charset (t ++ u) = file charset t ++ file charset u :=
  List.flatMap_append

theorem file_chars (h : Plain text) : file charset (chars text) = ascii text := by
  unfold file chars ascii
  rw [List.flatMap_map, List.map_eq_flatMap]
  refine List.flatMap_congr fun ch hch => ?_
  have hlt := (h ch hch).1
  rw [charset.ascii _ (by simp [UInt16.lt_iff_toNat_lt]; omega)]
  simp

theorem isText_of_mem_ascii (h : Plain text) : ∀ b ∈ ascii text, IsText b = true := by
  intro b hb
  obtain ⟨ch, hch, rfl⟩ := List.mem_map.mp hb
  exact (h ch hch).2

theorem filter_ascii (h : Plain text) : (ascii text).filter IsText = ascii text :=
  List.filter_eq_self.mpr (isText_of_mem_ascii h)

theorem toNat_of_mem_toString {n : ℕ} {ch : Char} (h : ch ∈ (toString n).toList) :
    48 ≤ ch.toNat ∧ ch.toNat ≤ 57 := by
  have hdigits : (toString n).toList = Nat.toDigits 10 n := Nat.toList_repr
  rw [hdigits] at h
  exact Char.isDigit_iff_toNat.mp (Nat.isDigit_of_mem_toDigits (by decide) (by decide) h)

/-- The digits of a number are plain. -/
theorem plain_toString (n : ℕ) : Plain (toString n) := by
  intro ch hch
  obtain ⟨hlo, hhi⟩ := toNat_of_mem_toString hch
  have hcodes : ∀ k < 58, 48 ≤ k → IsText k.toUInt8 = true := by decide
  exact ⟨by omega, hcodes ch.toNat (by omega) hlo⟩

theorem plain_winner (a : ℕ) : Plain (winner a) := by
  unfold winner
  split <;> decide

theorem plain_firstLine : Plain firstLine := by decide

theorem plain_secondLine : Plain secondLine := by decide

theorem plain_thirdLine : Plain thirdLine := by decide

theorem plain_fourthLine : Plain fourthLine := by decide

theorem file_of_lt {c : UInt16} (hc : c < 128) : file charset [c] = [c.toUInt8] := by
  rw [file, List.flatMap_singleton, charset.ascii c hc]

/-- The file in ASCII, but for what is written for the countries left. -/
theorem file_record (charset : AsciiCharset) (a s o : ℕ) (left : List UInt16) :
    file charset (record a s o left) =
      ascii firstLine ++ ascii (toString a) ++ [44] ++ ascii secondLine ++ ascii (toString s) ++ [44] ++
        ascii thirdLine ++ ascii (toString o) ++ [44] ++ ascii fourthLine ++ file charset left ++ [44] ++
        ascii (winner a) ++ [10] := by
  have hcomma : file charset (chars ",") = [44] := file_of_lt (by decide)
  have hnewline : file charset (chars "\n") = [10] := file_of_lt (by decide)
  simp only [record, file_append, hcomma, hnewline, file_chars plain_firstLine,
    file_chars plain_secondLine, file_chars plain_thirdLine, file_chars plain_fourthLine,
    file_chars (plain_toString _), file_chars (plain_winner _)]

/-- The text in it is that of the fields, but for what is written for the countries left. -/
theorem filter_record (charset : AsciiCharset) (a s o : ℕ) (left : List UInt16) :
    (file charset (record a s o left)).filter IsText =
      ascii firstLine ++ ascii (toString a) ++ ascii secondLine ++ ascii (toString s) ++
        ascii thirdLine ++ ascii (toString o) ++ ascii fourthLine ++
        (file charset left).filter IsText ++ ascii (winner a) := by
  have hcomma : [44].filter IsText = [] := rfl
  have hnewline : [10].filter IsText = [] := rfl
  simp only [file_record, List.filter_append, hcomma, hnewline, List.append_nil,
    filter_ascii plain_firstLine, filter_ascii plain_secondLine, filter_ascii plain_thirdLine,
    filter_ascii plain_fourthLine, filter_ascii (plain_toString _), filter_ascii (plain_winner _)]

theorem filter_fields (a s o n : ℕ) {newline : List UInt8} (h : newline.filter IsText = []) :
    (fields a s o n newline).flatten.filter IsText =
      ascii firstLine ++ ascii (toString a) ++ ascii secondLine ++ ascii (toString s) ++
        ascii thirdLine ++ ascii (toString o) ++ ascii fourthLine ++ ascii (toString n) ++
        ascii (winner a) := by
  simp only [fields, List.flatten_cons, List.flatten_nil, List.filter_append, h, List.append_nil,
    filter_ascii plain_firstLine, filter_ascii plain_secondLine, filter_ascii plain_thirdLine,
    filter_ascii plain_fourthLine, filter_ascii (plain_toString _), filter_ascii (plain_winner _),
    List.append_assoc]

/-- Where the fields are shown, what is written for the countries left has their number in it. -/
theorem sublist_of_shows {charset : AsciiCharset} {a s o n : ℕ} {left : List UInt16}
    (h : Shows (file charset (record a s o left)) a s o n) :
    (ascii (toString n)).Sublist (file charset left) := by
  obtain ⟨newline, hblank, hshown⟩ : ∃ newline, newline.filter IsText = [] ∧
      handler (file charset (record a s o left)) = fields a s o n newline := by
    rcases h with h | h
    · exact ⟨_, rfl, h⟩
    · exact ⟨_, by decide, h⟩
  have h := (handler_sublist (file charset (record a s o left))).filter IsText
  rw [hshown, filter_fields a s o n hblank, filter_record, List.append_sublist_append_right,
    List.append_sublist_append_left] at h
  exact h.trans List.filter_sublist

/-! ### A number written as text -/

theorem length_toString_le {n k : ℕ} (h : n < 10 ^ (k + 1)) : (ascii (toString n)).length ≤ k + 1 := by
  have hdigits : (toString n).toList = Nat.toDigits 10 n := Nat.toList_repr
  rw [ascii, List.length_map, hdigits]
  exact (Nat.length_toDigits_le_iff (by decide) (Nat.succ_pos k)).mpr h

theorem cString_eq_self {buffer : List UInt8} (h : ∀ b ∈ buffer, b ≠ 0) : cString buffer = buffer := by
  rw [cString, List.takeWhile_eq_self_iff]
  exact fun b hb => decide_eq_true (h b hb)

/-- The bytes of a line of fields are text and commas. -/
theorem isText_of_mem_intercalate {fields : List (List UInt8)}
    (hfields : ∀ field ∈ fields, field ≠ [] ∧ ∀ b ∈ field, IsText b = true) :
    ∀ b ∈ [44].intercalate fields, b = 44 ∨ IsText b = true := by
  intro b hb
  rcases mem_intercalate hb with rfl | ⟨field, hfield, hb⟩
  · exact .inl rfl
  · exact .inr ((hfields field hfield).2 b hb)

/-- A line of fields that fits into the buffer. -/
theorem handler_line {fields : List (List UInt8)} {last : List UInt8}
    (hfields : ∀ field ∈ fields ++ [last], field ≠ [] ∧ ∀ b ∈ field, IsText b = true)
    (hlength : ([44].intercalate (fields ++ [last])).length ≤ 1022) :
    handler ([44].intercalate (fields ++ [last]) ++ [10]) = fields ++ [last ++ [10]] := by
  have hbytes := isText_of_mem_intercalate hfields
  have hline : 10 ∉ [44].intercalate (fields ++ [last]) := fun h =>
    absurd (hbytes 10 h) (by decide)
  have hnul : ∀ b ∈ [44].intercalate (fields ++ [last]) ++ [10], b ≠ 0 := by
    rintro b hb rfl
    rcases List.mem_append.mp hb with hb | hb
    · exact absurd (hbytes 0 hb) (by decide)
    · exact absurd hb (by decide)
  have hcomma : ∀ field ∈ fields ++ [last ++ [10]], field ≠ [] ∧ 44 ∉ field := by
    intro field hfield
    rcases List.mem_append.mp hfield with hfield | hfield
    · obtain ⟨hne, htext⟩ := hfields field (List.mem_append_left _ hfield)
      exact ⟨hne, fun h => absurd (htext 44 h) (by decide)⟩
    · obtain ⟨-, htext⟩ := hfields last (List.mem_append_right _ (List.mem_singleton_self _))
      rw [List.mem_singleton.mp hfield]
      refine ⟨by simp, fun h => ?_⟩
      rcases List.mem_append.mp h with h | h
      · exact absurd (htext 44 h) (by decide)
      · exact absurd h (by decide)
  rw [handler, readLines_line hline hlength, List.flatMap_singleton, cString_eq_self hnul,
    intercalate_concat_append, tokens_intercalate (by simp) hcomma]

theorem file_record_text (charset : AsciiCharset) (a s o n : ℕ) :
    file charset (record a s o (chars (toString n))) =
      [44].intercalate (fields a s o n []) ++ [10] := by
  rw [file_record, file_chars (plain_toString n)]
  simp [fields]

theorem field_text {label number : String} (hne : ascii label ≠ [])
    (hlabel : Plain label) (hnumber : Plain number) :
    ascii label ++ ascii number ≠ [] ∧ ∀ b ∈ ascii label ++ ascii number, IsText b = true :=
  ⟨fun h => hne (List.append_eq_nil_iff.mp h).1, List.forall_mem_append.mpr
    ⟨isText_of_mem_ascii hlabel, isText_of_mem_ascii hnumber⟩⟩

theorem fields_text (a s o n : ℕ) :
    ∀ field ∈ fields a s o n [], field ≠ [] ∧ ∀ b ∈ field, IsText b = true := by
  have hwinner : ascii (winner a) ≠ [] := by
    unfold winner
    split <;> decide
  simp only [fields, List.forall_mem_cons, List.append_nil]
  exact ⟨field_text (by decide) plain_firstLine (plain_toString a),
    field_text (by decide) plain_secondLine (plain_toString s),
    field_text (by decide) plain_thirdLine (plain_toString o),
    field_text (by decide) plain_fourthLine (plain_toString n),
    ⟨hwinner, isText_of_mem_ascii (plain_winner a)⟩, List.forall_mem_nil _⟩

/-- Had the number been written as text, like the three before it, the viewer would show it. -/
theorem shows_record_text (charset : AsciiCharset) {a s o n : ℕ} (ha : a < 2 ^ 63) (hs : s < 2 ^ 63)
    (ho : o < 2 ^ 31) (hn : n < 2 ^ 31) :
    Shows (file charset (record a s o (chars (toString n)))) a s o n := by
  have ha := length_toString_le (k := 18) (ha.trans (by decide))
  have hs := length_toString_le (k := 18) (hs.trans (by decide))
  have ho := length_toString_le (k := 9) (ho.trans (by decide))
  have hn := length_toString_le (k := 9) (hn.trans (by decide))
  have hwinner : (ascii (winner a)).length ≤ 11 := by
    unfold winner
    split <;> decide
  have hlast (newline : List UInt8) : fields a s o n newline =
      (fields a s o n []).take 4 ++ [ascii (winner a) ++ newline] := rfl
  have hfields : fields a s o n [] = (fields a s o n []).take 4 ++ [ascii (winner a)] := by
    simp [fields]
  have hlength : ([44].intercalate (fields a s o n [])).length ≤ 1022 := by
    have h1 : (ascii firstLine).length = 19 := by decide
    have h2 : (ascii secondLine).length = 18 := by decide
    have h3 : (ascii thirdLine).length = 27 := by decide
    have h4 : (ascii fourthLine).length = 22 := by decide
    simp only [fields, List.intercalate_cons_cons, List.intercalate_singleton, List.length_append,
      List.length_cons, List.length_nil]
    omega
  rw [Shows, file_record_text, hlast (ascii "\n")]
  rw [hfields] at hlength ⊢
  exact .inr (handler_line (hfields ▸ fields_text a s o n) hlength)

/-! ### A number written as a character -/

theorem isDigit_of_mem_toString {n : ℕ} : ∀ b ∈ ascii (toString n), IsDigit b = true := by
  intro b hb
  obtain ⟨ch, hch, rfl⟩ := List.mem_map.mp hb
  obtain ⟨hlo, hhi⟩ := toNat_of_mem_toString hch
  have hcodes : ∀ k < 58, 48 ≤ k → IsDigit k.toUInt8 = true := by decide
  exact hcodes ch.toNat (by omega) hlo

/-- A number is as long as it has digits. -/
theorem countP_toString (n : ℕ) :
    (ascii (toString n)).countP IsDigit = (Nat.toDigits 10 n).length := by
  have hdigits : (toString n).toList = Nat.toDigits 10 n := Nat.toList_repr
  rw [List.countP_eq_length.mpr isDigit_of_mem_toString, ascii, List.length_map, hdigits]

/-- The bytes of the character with the code `n` do not have the number `n` in them: either `n` has three
digits or more and they have at most two, or they are one byte, which is a digit only where `n` has two. -/
theorem not_sublist_encode (charset : Charset) (n : ℕ) :
    ¬ (ascii (toString n)).Sublist (charset.encode n.toUInt16) := by
  intro h
  have hcount := h.countP_le (p := IsDigit)
  rw [countP_toString] at hcount
  by_cases hn : n.toUInt16 < 128
  · rw [charset.ascii _ hn] at hcount
    have hone : (Nat.toDigits 10 n).length ≤ 1 := hcount.trans List.countP_le_length
    have hten : n < 10 := (Nat.length_toDigits_le_iff (by decide) (by decide)).mp hone
    have hcode : ∀ k < 10, [k.toUInt16.toUInt8].countP IsDigit = 0 := by decide
    rw [hcode n hten, Nat.le_zero, List.length_eq_zero_iff] at hcount
    exact Nat.toDigits_ne_nil hcount
  · have hhundred : n < 100 := (Nat.length_toDigits_le_iff (by decide) (by decide)).mp
      (hcount.trans (charset.other _ (UInt16.not_lt.mp hn)))
    have hcodes : ∀ k < 100, k.toUInt16 < 128 := by decide
    exact hn (hcodes n hhundred)

/-- **The viewer.** It never shows the record at the end as written. -/
theorem not_shows_finalRecord (charset : Charset) (a s o n : ℕ) :
    ¬ Shows (file charset (finalRecord a s o n)) a s o n := by
  intro h
  refine not_sublist_encode charset n ?_
  have hleft := sublist_of_shows h
  rwa [file, writeInt, List.flatMap_singleton] at hleft

/-- UTF-8. A half of a surrogate pair is written as a question mark. -/
def utf8 : Charset where
  encode c :=
    if c.toNat < 0x80 then [c.toUInt8]
    else if c.toNat < 0x800 then [(0xC0 + c.toNat / 64).toUInt8, (0x80 + c.toNat % 64).toUInt8]
    else if 0xD800 ≤ c.toNat ∧ c.toNat < 0xE000 then [63]
    else
      [(0xE0 + c.toNat / 4096).toUInt8, (0x80 + c.toNat / 64 % 64).toUInt8,
        (0x80 + c.toNat % 64).toUInt8]
  ascii c hc := if_pos (UInt16.lt_iff_toNat_lt.mp hc)
  other c hc := by
    have hlt := c.toNat_lt
    have hlead : ∀ k < 16, IsDigit (0xE0 + k).toUInt8 = false := by decide
    split
    · exact List.countP_le_length.trans (by simp)
    · split
      · exact List.countP_le_length
      · split
        · exact List.countP_le_length.trans (by simp)
        · rw [List.countP_cons_of_neg (by rw [hlead _ (by omega)]; decide)]
          exact List.countP_le_length

/-- Two countries, both lost to five aliens: the NUL for no country ends the text before the comma, and
the viewer does not show who won. -/
theorem not_shows_noCountryLeft :
    ¬ ∀ a s o n, Shows (file utf8 (finalRecord a s o n)) a s o n := by
  intro h
  obtain h | h := h 5 0 2 0
  · exact absurd h (by decide +kernel)
  · exact absurd h (by decide +kernel)

end Viewer

end Hermes
