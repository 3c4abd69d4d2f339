import Hermes.Lib.MachineArithmetic
import Hermes.Viewer
import Mathlib.Data.List.Basic

/-!
# The report of an attack

`ExecuteAttack` writes a line of eleven fields over what was in the file, in which every number is written
as text. So what the `handler` of `civetwebapp.c` shows of it are the eleven fields (`handler_report`), and
the report can be read off them (`report_of_page`).
-/

namespace Hermes

namespace Viewer

open Fields MachineArithmetic

/-! ### What is written -/

/-- `currentCountry_m`. -/
def currentCountry : String := "Current country under attack: "

/-- `currentPop_m`. -/
def currentPop : String := "Current country population: "

/-- `fifth_line_m`. -/
def fifthLine : String := "Last attack: "

/-- `resAttack_m`. -/
def resAttack : String := "Resource attack"

/-- `popAttack_m`. -/
def popAttack : String := "Population attack"

/-- `humanDamage_m`. -/
def humanDamage : String := "Human Damage: "

/-- `alienDamage_m`. -/
def alienDamage : String := "Alien Damage: "

/-- `percent_m`. -/
def percent : String := "%"

/-- `roll_m`. -/
def rollLabel : String := "Roll: "

/-- `modifier_m`. -/
def modifierLabel : String := "Modifier: "

/-- `remaining_m`. -/
def remainingLabel : String := "Human countries destroyed: "

/-- The type of an attack, with the percentages that are written about it. -/
inductive Damage
  | resource (human : Int)
  | population (human aliens : Int)
  deriving DecidableEq, Repr

/-- What is written about an attack. -/
structure Report where
  aliens : Int
  people : Int
  original : Int
  left : Int
  country : String
  population : Int
  damage : Damage
  roll : Int
  modifier : Int
  destroyed : Int
  deriving DecidableEq, Repr

/-- The writes between the population and the roll. -/
def Damage.writes : Damage → List String
  | .resource human => [fifthLine ++ resAttack, ",", humanDamage, toString human ++ percent]
  | .population human aliens =>
    [fifthLine ++ popAttack, ",", humanDamage, toString human ++ percent, " -- ", alienDamage,
      toString aliens ++ percent]

/-- The writes of `ExecuteAttack`, in their order. -/
def Report.writes (r : Report) : List String :=
  [firstLine, toString r.aliens, ",", secondLine, toString r.people, ",",
    thirdLine, toString r.original, ",", fourthLine ++ toString r.left, ",",
    currentCountry ++ r.country, ",", currentPop ++ toString r.population, ","] ++ r.damage.writes ++
    [",", rollLabel ++ toString r.roll, ",", modifierLabel ++ toString r.modifier, ",",
      remainingLabel ++ toString r.destroyed]

/-- The text in the file. -/
def Report.text (r : Report) : List UInt16 := r.writes.flatMap chars ++ chars "\n"

/-! ### What is shown -/

/-- The field for the type of the attack. -/
def Damage.attackField : Damage → String
  | .resource _ => fifthLine ++ resAttack
  | .population _ _ => fifthLine ++ popAttack

/-- The field for the percentages. -/
def Damage.damageField : Damage → String
  | .resource human => humanDamage ++ (toString human ++ percent)
  | .population human aliens =>
    humanDamage ++ (toString human ++ percent) ++ " -- " ++ alienDamage ++ (toString aliens ++ percent)

/-- The fields but the last. -/
def Report.fields (r : Report) : List String :=
  [firstLine ++ toString r.aliens, secondLine ++ toString r.people, thirdLine ++ toString r.original,
    fourthLine ++ toString r.left, currentCountry ++ r.country, currentPop ++ toString r.population,
    r.damage.attackField, r.damage.damageField, rollLabel ++ toString r.roll,
    modifierLabel ++ toString r.modifier]

/-- The last field. -/
def Report.lastField (r : Report) : String := remainingLabel ++ toString r.destroyed

/-- The texts on the page: the eleven fields, the last with the newline. -/
def Report.page (r : Report) : List (List UInt8) := r.fields.map ascii ++ [ascii r.lastField ++ [10]]

/-! ### Texts in ASCII -/

variable {charset : AsciiCharset} {s t : String}

theorem ascii_append (s t : String) : ascii (s ++ t) = ascii s ++ ascii t := by
  simp [ascii]

theorem plain_append : Plain (s ++ t) ↔ Plain s ∧ Plain t := by
  simp only [Plain, String.toList_append, List.mem_append, or_imp, forall_and]

/-- A number is written with digits and perhaps a minus. -/
theorem toString_cases (n : Int) :
    (∃ m : ℕ, n = m ∧ toString n = toString m) ∨ ∃ m : ℕ, n = -m ∧ toString n = "-" ++ toString m := by
  cases n with
  | ofNat m => exact .inl ⟨m, rfl, rfl⟩
  | negSucc m => exact .inr ⟨m + 1, rfl, rfl⟩

theorem plain_int (n : Int) : Plain (toString n) := by
  rcases toString_cases n with ⟨m, -, h⟩ | ⟨m, -, h⟩
  · rw [h]
    exact plain_toString m
  · rw [h, plain_append]
    exact ⟨by decide, plain_toString m⟩

theorem length_int_le {n : Int} (h : Fits (2 ^ 64) n) : (ascii (toString n)).length ≤ 20 := by
  obtain ⟨hlo, hhi⟩ := h
  rcases toString_cases n with ⟨m, hm, h⟩ | ⟨m, hm, h⟩
  · rw [h]
    have hlength := length_toString_le (n := m) (k := 18) (by omega)
    omega
  · rw [h, ascii_append, List.length_append]
    have hlength := length_toString_le (n := m) (k := 18) (by omega)
    have hminus : (ascii "-").length = 1 := by decide
    omega

theorem plain_label {label : String} (h : Plain label) (n : Int) : Plain (label ++ toString n) :=
  plain_append.mpr ⟨h, plain_int n⟩

theorem plain_percent (n : Int) : Plain (toString n ++ percent) := plain_append.mpr ⟨plain_int n, by decide⟩

/-! ### The line -/

theorem damage_writes (damage : Damage) : ∀ s ∈ damage.writes, s = "," ∨ Plain s := by
  cases damage with
  | resource human =>
    simp only [Damage.writes, List.forall_mem_cons]
    exact ⟨.inr (by decide), .inl trivial, .inr (by decide), .inr (plain_percent human), List.forall_mem_nil _⟩
  | population human aliens =>
    simp only [Damage.writes, List.forall_mem_cons]
    exact ⟨.inr (by decide), .inl trivial, .inr (by decide), .inr (plain_percent human), .inr (by decide),
      .inr (by decide), .inr (plain_percent aliens), List.forall_mem_nil _⟩

/-- What is written is a comma, or plain. -/
theorem writes_cases (r : Report) (hname : Plain r.country) : ∀ s ∈ r.writes, s = "," ∨ Plain s := by
  simp only [Report.writes, List.forall_mem_append, List.forall_mem_cons]
  exact ⟨⟨⟨.inr (by decide), .inr (plain_int _), .inl trivial, .inr (by decide), .inr (plain_int _), .inl trivial,
    .inr (by decide), .inr (plain_int _), .inl trivial, .inr (plain_label (by decide) _), .inl trivial,
    .inr (plain_append.mpr ⟨by decide, hname⟩), .inl trivial, .inr (plain_label (by decide) _), .inl trivial,
    List.forall_mem_nil _⟩, damage_writes r.damage⟩, .inl trivial, .inr (plain_label (by decide) _), .inl trivial,
    .inr (plain_label (by decide) _), .inl trivial, .inr (plain_label (by decide) _), List.forall_mem_nil _⟩

theorem file_of_cases (h : s = "," ∨ Plain s) : file charset (chars s) = ascii s := by
  rcases h with rfl | h
  · exact file_of_lt (by decide)
  · exact file_chars h

/-- The writes put the fields between commas. -/
theorem flatMap_writes (r : Report) :
    r.writes.flatMap ascii = [44].intercalate (r.fields.map ascii ++ [ascii r.lastField]) := by
  have hcomma : ascii "," = [44] := by decide
  cases hdamage : r.damage <;>
    simp [Report.writes, Report.fields, Report.lastField, Damage.writes, Damage.attackField,
      Damage.damageField, hdamage, ascii_append, hcomma, List.intercalate_cons_cons]

theorem file_report (r : Report) (hname : Plain r.country) :
    file charset r.text = [44].intercalate (r.fields.map ascii ++ [ascii r.lastField]) ++ [10] := by
  have hnewline : file charset (chars "\n") = [10] := file_of_lt (by decide)
  rw [Report.text, file_append, hnewline, ← flatMap_writes, file, List.flatMap_assoc]
  congr 1
  exact List.flatMap_congr fun s hs => file_of_cases (writes_cases r hname s hs)

/-- The numbers in a report. -/
def Report.numbers (r : Report) : List Int :=
  [r.aliens, r.people, r.original, r.left, r.population, r.roll, r.modifier, r.destroyed] ++
    match r.damage with
    | .resource human => [human]
    | .population human aliens => [human, aliens]

/-- The numbers are of the type `long`, and the line fits into the buffer. -/
structure Report.Fits (r : Report) : Prop where
  numbers : ∀ n ∈ r.numbers, MachineArithmetic.Fits (2 ^ 64) n
  name : r.country.length ≤ 500

theorem length_ascii (s : String) : (ascii s).length = s.length := by
  rw [ascii, List.length_map, String.length_toList]

theorem length_damage_le {r : Report} (h : r.Fits) :
    (ascii r.damage.attackField).length + (ascii r.damage.damageField).length ≤ 110 := by
  have hnumber {n : Int} (hn : n ∈ r.numbers) : (ascii (toString n)).length ≤ 20 :=
    length_int_le (h.numbers n hn)
  have h1 : (ascii fifthLine).length = 13 := by decide
  have h2 : (ascii resAttack).length = 15 := by decide
  have h3 : (ascii popAttack).length = 17 := by decide
  have h4 : (ascii humanDamage).length = 14 := by decide
  have h5 : (ascii alienDamage).length = 14 := by decide
  have h6 : (ascii percent).length = 1 := by decide
  have h7 : (ascii " -- ").length = 4 := by decide
  cases hdamage : r.damage with
  | resource human =>
    have hhuman := hnumber (n := human) (by simp [Report.numbers, hdamage])
    simp only [Damage.attackField, Damage.damageField, ascii_append, List.length_append]
    omega
  | population human aliens =>
    have hhuman := hnumber (n := human) (by simp [Report.numbers, hdamage])
    have haliens := hnumber (n := aliens) (by simp [Report.numbers, hdamage])
    simp only [Damage.attackField, Damage.damageField, ascii_append, List.length_append]
    omega

theorem length_line {r : Report} (h : r.Fits) :
    ([44].intercalate (r.fields.map ascii ++ [ascii r.lastField])).length ≤ 1022 := by
  have hnumber {n : Int} (hn : n ∈ r.numbers) : (ascii (toString n)).length ≤ 20 :=
    length_int_le (h.numbers n hn)
  have haliens := hnumber (n := r.aliens) (by simp [Report.numbers])
  have hpeople := hnumber (n := r.people) (by simp [Report.numbers])
  have horiginal := hnumber (n := r.original) (by simp [Report.numbers])
  have hleft := hnumber (n := r.left) (by simp [Report.numbers])
  have hpopulation := hnumber (n := r.population) (by simp [Report.numbers])
  have hroll := hnumber (n := r.roll) (by simp [Report.numbers])
  have hmodifier := hnumber (n := r.modifier) (by simp [Report.numbers])
  have hdestroyed := hnumber (n := r.destroyed) (by simp [Report.numbers])
  have hname : (ascii r.country).length ≤ 500 := (length_ascii r.country).le.trans h.name
  have hdamage := length_damage_le h
  have h1 : (ascii firstLine).length = 19 := by decide
  have h2 : (ascii secondLine).length = 18 := by decide
  have h3 : (ascii thirdLine).length = 27 := by decide
  have h4 : (ascii fourthLine).length = 22 := by decide
  have h5 : (ascii currentCountry).length = 30 := by decide
  have h6 : (ascii currentPop).length = 28 := by decide
  have h7 : (ascii rollLabel).length = 6 := by decide
  have h8 : (ascii modifierLabel).length = 10 := by decide
  have h9 : (ascii remainingLabel).length = 27 := by decide
  simp only [Report.fields, Report.lastField, List.map_cons, List.map_nil, List.cons_append, List.nil_append,
    List.intercalate_cons_cons, List.intercalate_singleton, List.length_append, List.length_cons,
    List.length_nil, ascii_append]
  omega

/-- The fields are plain and not empty. -/
theorem fields_isText (r : Report) (hname : Plain r.country) :
    ∀ field ∈ r.fields.map ascii ++ [ascii r.lastField], field ≠ [] ∧ ∀ b ∈ field, IsText b = true := by
  have hfield {label text : String} (hne : ascii label ≠ []) (hlabel : Plain label) (htext : Plain text) :
      ascii (label ++ text) ≠ [] ∧ ∀ b ∈ ascii (label ++ text), IsText b = true := by
    rw [ascii_append]
    exact field_text hne hlabel htext
  have hdamage : ascii r.damage.damageField ≠ [] ∧ ∀ b ∈ ascii r.damage.damageField, IsText b = true := by
    cases r.damage with
    | resource human => exact hfield (by decide) (by decide) (plain_percent human)
    | population human aliens =>
      simp only [Damage.damageField, String.append_assoc]
      refine hfield (by decide) (by decide) ?_
      simp only [plain_append]
      exact ⟨plain_int _, by decide, by decide, by decide, plain_int _, by decide⟩
  have hattack : ascii r.damage.attackField ≠ [] ∧
      ∀ b ∈ ascii r.damage.attackField, IsText b = true := by
    cases r.damage with
    | resource => exact hfield (by decide) (by decide) (by decide)
    | population => exact hfield (by decide) (by decide) (by decide)
  simp only [Report.fields, Report.lastField, List.map_cons, List.map_nil, List.cons_append, List.nil_append,
    List.forall_mem_cons]
  exact ⟨hfield (by decide) (by decide) (plain_int _), hfield (by decide) (by decide) (plain_int _),
    hfield (by decide) (by decide) (plain_int _), hfield (by decide) (by decide) (plain_int _),
    hfield (by decide) (by decide) hname, hfield (by decide) (by decide) (plain_int _), hattack, hdamage,
    hfield (by decide) (by decide) (plain_int _), hfield (by decide) (by decide) (plain_int _),
    hfield (by decide) (by decide) (plain_int _), List.forall_mem_nil _⟩

/-- What the viewer shows of a report. -/
theorem handler_report {r : Report} (hname : Plain r.country) (h : r.Fits) :
    handler (file charset r.text) = r.page := by
  rw [file_report r hname, handler_line (fields_isText r hname) (length_line h), Report.page]

/-! ### Reading it off the page -/

theorem ascii_injective (hs : Plain s) (ht : Plain t) (h : ascii s = ascii t) : s = t := by
  have hread {u : String} (hu : Plain u) : (ascii u).map (fun b => Char.ofNat b.toNat) = u.toList := by
    rw [ascii, List.map_map]
    refine (List.map_congr_left fun ch hch => ?_).trans (List.map_id _)
    have hlt := (hu ch hch).1
    have hcode : ch.toNat.toUInt8.toNat = ch.toNat := by
      rw [Nat.toUInt8, UInt8.toNat_ofNat']
      omega
    simp [hcode]
  have hlist : s.toList = t.toList := by rw [← hread hs, ← hread ht, h]
  exact String.toList_inj.mp hlist

theorem toString_nat_injective {m n : ℕ} (h : toString m = toString n) : m = n := by
  have hdigits (k : ℕ) : (toString k).toList = Nat.toDigits 10 k := Nat.toList_repr
  have hlist : Nat.toDigits 10 m = Nat.toDigits 10 n := by rw [← hdigits, ← hdigits, h]
  have hread := congrArg (fun l => Nat.ofDigitChars 10 l 0) hlist
  simpa using hread

/-- The characters of a number are digits, or the minus. -/
theorem toNat_of_mem_int {n : Int} {ch : Char} (h : ch ∈ (toString n).toList) :
    ch = '-' ∨ 48 ≤ ch.toNat ∧ ch.toNat ≤ 57 := by
  rcases toString_cases n with ⟨m, -, hm⟩ | ⟨m, -, hm⟩
  · rw [hm] at h
    exact .inr (toNat_of_mem_toString h)
  · rw [hm, String.toList_append, List.mem_append] at h
    rcases h with h | h
    · exact .inl (by simpa using h)
    · exact .inr (toNat_of_mem_toString h)

theorem toString_int_injective {m n : Int} (h : toString m = toString n) : m = n := by
  have hminus (k l : ℕ) : toString k ≠ "-" ++ toString l := by
    intro heq
    have hmem : '-' ∈ (toString k).toList := by
      rw [heq, String.toList_append]
      exact List.mem_append_left _ (by decide)
    have hdigit := toNat_of_mem_toString hmem
    exact absurd hdigit.1 (by decide)
  rcases toString_cases m with ⟨k, rfl, hk⟩ | ⟨k, rfl, hk⟩
  · rcases toString_cases n with ⟨l, rfl, hl⟩ | ⟨l, rfl, hl⟩
    · rw [toString_nat_injective (hk.symm.trans (h.trans hl))]
    · exact absurd (hk.symm.trans (h.trans hl)) (hminus k l)
  · rcases toString_cases n with ⟨l, rfl, hl⟩ | ⟨l, rfl, hl⟩
    · exact absurd (hl.symm.trans (h.symm.trans hk)) (hminus l k)
    · have htext := hk.symm.trans (h.trans hl)
      rw [String.append_right_inj] at htext
      rw [toString_nat_injective htext]

/-- A number after a label. -/
theorem number_of_field {label : String} {m n : Int}
    (h : ascii (label ++ toString m) = ascii (label ++ toString n)) : m = n := by
  rw [ascii_append, ascii_append] at h
  exact toString_int_injective (ascii_injective (plain_int m) (plain_int n) (List.append_cancel_left h))

theorem percent_not_mem (n : Int) : 37 ∉ ascii (toString n) := by
  intro h
  obtain ⟨ch, hch, hcode⟩ := List.mem_map.mp h
  rcases toNat_of_mem_int hch with rfl | ⟨hlo, hhi⟩
  · exact absurd hcode (by decide)
  · have hnat := congrArg UInt8.toNat hcode
    rw [Nat.toUInt8, UInt8.toNat_ofNat'] at hnat
    have hpercent : (37 : UInt8).toNat = 37 := rfl
    omega

/-- The type of the attack says how many percentages there are, and the first ends at its sign. -/
theorem damage_of_fields {damage damage' : Damage}
    (hattack : ascii damage.attackField = ascii damage'.attackField)
    (hdamage : ascii damage.damageField = ascii damage'.damageField) : damage = damage' := by
  have hnumber {m n : Int} {rest rest' : List UInt8}
      (h : ascii (toString m) ++ 37 :: rest = ascii (toString n) ++ 37 :: rest') : m = n ∧ rest = rest' := by
    obtain ⟨htext, hrest⟩ := append_sep_inj (percent_not_mem m) (percent_not_mem n) h
    exact ⟨toString_int_injective (ascii_injective (plain_int m) (plain_int n) htext), hrest⟩
  have hpercent : ascii percent = [37] := by decide
  have hlabels : ascii (fifthLine ++ resAttack) ≠ ascii (fifthLine ++ popAttack) := by decide
  cases damage with
  | resource human =>
    cases damage' with
    | resource human' =>
      simp only [Damage.damageField, ascii_append, hpercent] at hdamage
      rw [(hnumber (List.append_cancel_left hdamage)).1]
    | population => exact absurd hattack hlabels
  | population human aliens =>
    cases damage' with
    | resource => exact absurd hattack.symm hlabels
    | population human' aliens' =>
      simp only [Damage.damageField, ascii_append, hpercent, List.append_assoc, List.cons_append,
        List.nil_append] at hdamage
      obtain ⟨rfl, hrest⟩ := hnumber (List.append_cancel_left hdamage)
      have haliens := List.append_cancel_left (List.append_cancel_left hrest)
      rw [(hnumber haliens).1]

theorem report_of_page {r r' : Report} (hname : Plain r.country) (hname' : Plain r'.country)
    (h : r.page = r'.page) : r = r' := by
  simp only [Report.page, Report.fields, List.map_cons, List.map_nil, List.cons_append, List.nil_append,
    List.cons.injEq, and_true] at h
  obtain ⟨haliens, hpeople, horiginal, hleft, hcountry, hpopulation, hattack, hdamage, hroll, hmodifier,
    hdestroyed⟩ := h
  have hcountry' : r.country = r'.country := by
    rw [ascii_append, ascii_append] at hcountry
    exact ascii_injective hname hname' (List.append_cancel_left hcountry)
  have hdestroyed' := number_of_field (List.append_cancel_right hdestroyed)
  rcases r with ⟨aliens, people, original, left, country, population, damage, roll, modifier, destroyed⟩
  rcases r' with ⟨aliens', people', original', left', country', population', damage', roll', modifier',
    destroyed'⟩
  simp only [Report.mk.injEq]
  exact ⟨number_of_field haliens, number_of_field hpeople, number_of_field horiginal, number_of_field hleft,
    hcountry', number_of_field hpopulation, damage_of_fields hattack hdamage, number_of_field hroll,
    number_of_field hmodifier, hdestroyed'⟩

/-- **The page determines the report.** Two reports of numbers of the type `long`, about countries with plain
names that are not too long, look alike in the viewer exactly when they are the same. -/
theorem shown_eq_iff (charset : AsciiCharset) {r r' : Report} (hname : Plain r.country) (h : r.Fits)
    (hname' : Plain r'.country) (h' : r'.Fits) :
    handler (file charset r.text) = handler (file charset r'.text) ↔ r = r' := by
  rw [handler_report hname h, handler_report hname' h']
  exact ⟨report_of_page hname hname', congrArg Report.page⟩

/-- A report about Picon. -/
def firstReport : Report where
  aliens := 500
  people := 650
  original := 1
  left := 1
  country := "Picon"
  population := 650
  damage := .population 35 0
  roll := 20
  modifier := 23
  destroyed := 0

/-- `shown_eq_iff` for two reports that differ in what is hit. -/
theorem shown_ne_firstReport :
    handler (file utf8 firstReport.text) ≠
      handler (file utf8 { firstReport with damage := .population 0 35 : Report }.text) := by
  have hfits : firstReport.Fits := ⟨by decide +kernel, by decide⟩
  have hfits' : ({ firstReport with damage := .population 0 35 } : Report).Fits :=
    ⟨by decide +kernel, by decide⟩
  exact (shown_eq_iff utf8 (by decide) hfits (by decide) hfits').not.mpr (by decide)

end Viewer

end Hermes
