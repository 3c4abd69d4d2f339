import Hermes.Lib.Fields
import Hermes.Lib.MachineArithmetic
import Hermes.Status

/-!
# Loading a country

`Country.schedule` looks for the first row of a csv file with the name of the country, and stores the
eight fields after the name one by one. It can throw at each of them, and what is stored stays.

A line is a list of characters, and `digit` is `Character.digit` in base ten. Java's `null` is `none`.
-/

namespace Hermes

namespace PerResource

variable {α : Type}

/-- The values, if there are eight. -/
def allSome (r : PerResource (Option α)) : Option (PerResource α) := do
  return ⟨← r.population, ← r.metallicElems, ← r.timber, ← r.metallicAlloys, ← r.metallicAlloysWaste,
    ← r.electronics, ← r.housing, ← r.housingWaste⟩

theorem allSome_eq_some {r : PerResource (Option α)} {s : PerResource α} :
    r.allSome = some s ↔ ∀ p, r.get p = some (s.get p) := by
  constructor
  · intro h
    simp only [allSome, bind, Option.bind_eq_some_iff] at h
    obtain ⟨_, h0, _, h1, _, h2, _, h3, _, h4, _, h5, _, h6, _, h7, hs⟩ := h
    cases hs
    intro p
    cases p <;> assumption
  · intro h
    have hr : r = ⟨some s.population, some s.metallicElems, some s.timber, some s.metallicAlloys,
        some s.metallicAlloysWaste, some s.electronics, some s.housing, some s.housingWaste⟩ :=
      ext_get fun p => by rw [h p]; cases p <;> rfl
    rw [hr]
    rfl

theorem allSome_eq_none {r : PerResource (Option α)} : r.allSome = none ↔ ∃ p, r.get p = none := by
  constructor
  · intro h
    by_contra hr
    push Not at hr
    choose f hf using fun p => Option.ne_none_iff_exists'.mp (hr p)
    have hs : r.allSome = some ⟨f .population, f .metallicElems, f .timber, f .metallicAlloys,
        f .metallicAlloysWaste, f .electronics, f .housing, f .housingWaste⟩ :=
      allSome_eq_some.mpr fun p => by rw [hf p]; cases p <;> rfl
    rw [h] at hs
    cases hs
  · rintro ⟨p, hp⟩
    cases hr : r.allSome with
    | none => rfl
    | some s =>
      rw [allSome_eq_some.mp hr p] at hp
      cases hp

end PerResource

namespace Country

open Fields MachineArithmetic

/-! ### The variables of a country -/

/-- What `schedule` reads and sets of a country. -/
structure Variables where
  name : Option String
  amounts : PerResource (Option Int)
  status : Status
  output : Option String
  schedules : Int
  depth : Int
  frontier : Int
  configured : Bool
  deriving DecidableEq

/-- The arguments of `schedule`. -/
structure Arguments where
  name : Option String
  resourceFilename : Option String
  initialStateFilename : Option String
  outputScheduleFilename : Option String
  numOutputSchedules : Int
  depthBound : Int
  frontierMaxSize : Int

/-- What `schedule` throws without catching it. -/
inductive Thrown
  | arrayIndexOutOfBounds
  | numberFormat
  | nullPointer
  deriving DecidableEq

section

variable (digit : Char → Option ℕ)

/-! ### Reading a row -/

/-- The value of at least one digit. -/
def digits : List Char → Option ℕ
  | [] => none
  | text => text.foldlM (fun n ch => (digit ch).map (10 * n + ·)) 0

/-- `Long.parseLong`: a sign or none, and digits, if that is a long. -/
def parseLong (text : List Char) : Option Int :=
  let value : Option Int :=
    match text with
    | '-' :: rest => (digits digit rest).map fun n => -(n : Int)
    | '+' :: rest => (digits digit rest).map fun n => (n : Int)
    | rest => (digits digit rest).map fun n => (n : Int)
  value.filter (Fits (2 ^ 64))

theorem parseLong_nil : parseLong digit [] = none := rfl

/-- The index of the field of a resource in `newLine`. -/
def column : Position → ℕ
  | .population => 1
  | .metallicElems => 2
  | .timber => 3
  | .metallicAlloys => 4
  | .metallicAlloysWaste => 5
  | .electronics => 6
  | .housing => 7
  | .housingWaste => 8

/-- `Long.parseLong(newLine[k])`. -/
def field (newLine : List (List Char)) (k : ℕ) : Except Thrown Int :=
  match newLine[k]? with
  | none => .error .arrayIndexOutOfBounds
  | some text =>
    match parseLong digit text with
    | none => .error .numberFormat
    | some x => .ok x

/-- The fields are stored one after the other, up to the first that throws. -/
def store (newLine : List (List Char)) :
    List Position → PerResource (Option Int) → PerResource (Option Int) × Option Thrown
  | [], amounts => (amounts, none)
  | p :: ps, amounts =>
    match field digit newLine (column p) with
    | .error e => (amounts, some e)
    | .ok x => store newLine ps (amounts.set p (some x))

/-- How the loop over the lines ends. -/
inductive Search
  /-- `readLine` gives `null` -/
  | endOfFile
  /-- `newLine[0]` is out of bounds -/
  | noField
  /-- `newLine[0].equals(name_m)` -/
  | row (newLine : List (List Char))

/-- The loop over the lines. -/
def search (name : List Char) : List (List Char) → Search
  | [] => .endOfFile
  | line :: lines =>
    match (split ',' line)[0]? with
    | none => .noField
    | some first => if first = name then .row (split ',' line) else search name lines

/-! ### `schedule` -/

namespace Variables

/-- `schedule` from `CalculateStatus` on, which reads all eight amounts. -/
def finish (c : Variables) (a : Arguments) : Variables × Option Thrown :=
  match c.amounts.allSome with
  | none => (c, some .nullPointer)
  | some amounts =>
    ({ c with
        status := calculateStatus amounts
        output := a.outputScheduleFilename
        schedules := a.numOutputSchedules
        depth := a.depthBound
        frontier := a.frontierMaxSize
        configured := true }, none)

/-- `schedule` once the checks are passed. A file that cannot be opened has no lines. -/
def load (lines : List (List Char)) (name : String) (a : Arguments) (c : Variables) :
    Variables × Option Thrown :=
  let c := { c with name := some name }
  match search name.toList lines with
  | .noField => (c, some .arrayIndexOutOfBounds)
  | .endOfFile => c.finish a
  | .row newLine =>
    match store digit newLine Position.all c.amounts with
    | (amounts, some e) => ({ c with amounts := amounts }, some e)
    | (amounts, none) => { c with amounts := amounts }.finish a

/-- `schedule`: the variables after it, and what it throws. -/
def schedule (files : String → Option (List (List Char))) (a : Arguments) (c : Variables) :
    Variables × Option Thrown :=
  match a.name, a.resourceFilename, a.initialStateFilename, a.outputScheduleFilename with
  | some name, some file, some _, some _ =>
    if a.numOutputSchedules < 1 ∨ a.depthBound < 1 ∨ a.frontierMaxSize < 1 then (c, none)
    else c.load digit ((files file).getD []) name a
  | _, _, _, _ => (c, none)

end Variables

end

end Country

end Hermes
