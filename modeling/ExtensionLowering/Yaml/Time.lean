/-!
# Points in time

A date is a year of four digits, a month and a day. Behind it a time of day may follow, either after a
letter `T` and with a zone, or after spaces and without one.
-/
namespace ExtensionLowering.Yaml

/-- Where a clock stands. A time given by an offset of nothing is that of the place itself. -/
inductive Zone where
  | universal
  | here
  | elsewhere
  deriving Repr, DecidableEq

def Zone.shown : Zone → String
  | .universal => "time.UTC"
  | .here => "time.Local"
  | .elsewhere => "time.Location(\"\")"

structure Time where
  year : Nat
  month : Nat
  day : Nat
  hour : Nat := 0
  minute : Nat := 0
  second : Nat := 0
  nanosecond : Nat := 0
  zone : Zone := .universal
  deriving Repr, DecidableEq

namespace Time

def daysIn (year month : Nat) : Nat :=
  if month = 2 then
    if year % 4 = 0 ∧ (year % 100 ≠ 0 ∨ year % 400 = 0) then 29 else 28
  else if month = 4 ∨ month = 6 ∨ month = 9 ∨ month = 11 then 30
  else 31

def digits? (text : List Char) : Option Nat :=
  if text.isEmpty || ! text.all Char.isDigit then none
  else some (text.foldl (fun n c => 10 * n + (c.toNat - '0'.toNat)) 0)

def upToTwoDigits (text : List Char) : Option (Nat × List Char) :=
  let digits := (text.take 2).takeWhile Char.isDigit
  (digits? digits).map fun n => (n, text.drop digits.length)

def date? (text : List Char) : Option (Time × List Char) := do
  let year ← digits? (text.take 4)
  let '-' :: rest := text.drop 4 | none
  let (month, rest) ← upToTwoDigits rest
  let '-' :: rest := rest | none
  let (day, rest) ← upToTwoDigits rest
  if 1 ≤ month ∧ month ≤ 12 ∧ 1 ≤ day ∧ day ≤ daysIn year month then
    some ({ year, month, day }, rest)
  else none

/-- A fraction of a second in nanoseconds, which may be missing. Its first nine digits count. -/
def fraction (text : List Char) : Nat × List Char :=
  match text with
  | point :: d :: more =>
    if (point = '.' || point = ',') && d.isDigit then
      let digits := ((d :: more).takeWhile Char.isDigit).take 9
      (((digits? digits).getD 0) * Nat.pow 10 (9 - digits.length), more.dropWhile Char.isDigit)
    else (0, text)
  | _ => (0, text)

def clock? (t : Time) (text : List Char) : Option (Time × List Char) := do
  let (hour, rest) ← upToTwoDigits text
  let ':' :: rest := rest | none
  let (minute, rest) ← upToTwoDigits rest
  let ':' :: rest := rest | none
  let (second, rest) ← upToTwoDigits rest
  let (nanosecond, rest) := fraction rest
  if hour < 24 ∧ minute < 60 ∧ second < 60 then
    some ({ t with hour, minute, second, nanosecond }, rest)
  else none

def zone? : List Char → Option Zone
  | ['Z'] => some .universal
  | [sign, a, b, ':', c, d] => do
    let hours ← digits? [a, b]
    let minutes ← digits? [c, d]
    if (sign = '+' ∨ sign = '-') ∧ hours ≤ 24 ∧ minutes ≤ 60 then
      some (if hours = 0 ∧ minutes = 0 then .here else .elsewhere)
    else none
  | _ => none

/-- The date, or date with a time, that a text spells. Spaces before the time count as one. -/
def ofChars? (text : List Char) : Option Time := do
  let (t, rest) ← date? text
  match rest with
  | [] => some t
  | sep :: rest =>
    if sep = ' ' then
      let (t, rest) ← t.clock? (rest.dropWhile (· = ' '))
      if rest.isEmpty then some t else none
    else if sep = 'T' ∨ sep = 't' then
      let (t, rest) ← t.clock? rest
      let zone ← zone? rest
      some { t with zone }
    else none

def monthNames : List String :=
  ["January", "February", "March", "April", "May", "June", "July", "August", "September", "October",
    "November", "December"]

def shown (t : Time) : String :=
  "time.Date(" ++ toString t.year ++ ", time." ++ monthNames.getD (t.month - 1) "" ++ ", " ++
    ", ".intercalate ([t.day, t.hour, t.minute, t.second, t.nanosecond].map toString) ++ ", " ++
    t.zone.shown ++ ")"

end Time

end ExtensionLowering.Yaml
