import ConsoleScript.Number.Integer

/-!
# Dates and times

Configuration files write dates and times in the usual international form: a date, a time of day,
or both with a `T` or a blank between them, and then possibly an offset from universal time. Seconds
and fractions of a second may be left out. Every number has its full width and lies in its range.
-/

namespace ConsoleScript.Toml

structure Date where
  year : Nat
  month : Nat
  day : Nat
  deriving DecidableEq, Repr

structure TimeOfDay where
  hour : Nat
  minute : Nat
  second : Nat
  /-- The digits of the fraction of a second. -/
  fraction : Text
  deriving DecidableEq, Repr

/-- A point in time, as far as it is known. The offset from universal time is in minutes. -/
inductive Moment where
  | date (d : Date)
  | time (t : TimeOfDay)
  | dateTime (d : Date) (t : TimeOfDay) (offset : Option Int)
  deriving DecidableEq, Repr

namespace Moment

/-- Exactly `width` digits, and what follows them. -/
def digits? (width : Nat) (t : Text) : Option (Nat × Text) :=
  let ds := t.take width
  if ds.length == width && ds.all isDigit then
    (Integer.digits? ds).map fun n => (n, t.drop width)
  else none

/-- Two digits for a number below `bound`, and what follows them. -/
def twoDigits? (bound : Nat) (t : Text) : Option (Nat × Text) :=
  (digits? 2 t).bind fun (n, rest) => if n < bound then some (n, rest) else none

def after? (b : UInt8) : Text → Option Text
  | c :: t => if c == b then some t else none
  | [] => none

def isLeap (year : Nat) : Bool := year % 4 == 0 && (year % 100 != 0 || year % 400 == 0)

def daysIn (year month : Nat) : Nat :=
  if month == 2 then (if isLeap year then 29 else 28)
  else if [4, 6, 9, 11].contains month then 30
  else 31

def date? (t : Text) : Option (Date × Text) := do
  let (year, t) ← digits? 4 t
  let (month, t) ← digits? 2 (← after? 0x2D t)
  let (day, t) ← digits? 2 (← after? 0x2D t)
  if 1 ≤ month && month ≤ 12 && 1 ≤ day && day ≤ daysIn year month then
    some (⟨year, month, day⟩, t)
  else none

/-- The fraction of a second at the start, if there is one. -/
def fraction : Text → Text × Text
  | [] => ([], [])
  | b :: t =>
    let ds := t.takeWhile isDigit
    if b == 0x2E && !ds.isEmpty then (ds, t.drop ds.length) else ([], b :: t)

def time? (t : Text) : Option (TimeOfDay × Text) := do
  let (hour, t) ← twoDigits? 24 t
  let (minute, t) ← twoDigits? 60 (← after? 0x3A t)
  match after? 0x3A t with
  | none => some (⟨hour, minute, 0, []⟩, t)
  | some t =>
    let (second, t) ← twoDigits? 60 t
    let (digits, t) := fraction t
    some (⟨hour, minute, second, digits⟩, t)

/-- An offset that fills the rest of a text. Twenty-four hours and sixty minutes are let through,
as they are in use. -/
def offset? : Text → Option Int
  | [0x5A] => some 0
  | sign :: t => do
    let (hours, t) ← twoDigits? 25 t
    let (minutes, t) ← twoDigits? 61 (← after? 0x3A t)
    let size : Int := hours * 60 + minutes
    if !t.isEmpty then none
    else if sign == 0x2B then some size
    else if sign == 0x2D then some (-size)
    else none
  | [] => none

/-- The letters in upper case, and a `T` in place of a blank. -/
def normalize (t : Text) : Text := t.map fun b =>
  if b == 0x7A then 0x5A else if b == 0x74 || b == 0x20 then 0x54 else b

def ofText? (t : Text) : Option Moment :=
  let t := normalize t
  match date? t with
  | some (d, []) => some (.date d)
  | some (d, rest) => do
    let (clock, rest) ← time? (← after? 0x54 rest)
    if rest.isEmpty then some (.dateTime d clock none)
    else (offset? rest).map fun z => .dateTime d clock (some z)
  | none =>
    match time? t with
    | some (clock, []) => some (.time clock)
    | _ => none

end Moment
end ConsoleScript.Toml
