import OqsBind.Isc.Serial
import OqsBind.Lib.Decimal

/-! Times as text (`dns/time.c`): fourteen digits for the year, the month, the day, the hour, the minute and the second. -/

namespace OqsBind.Dns.Time
open Isc Decimal

/-- `overread` is a read behind the table of the months. -/
inductive TimeError
  | badSyntax
  | range
  | nospace
  | overread
deriving DecidableEq, Repr

def days : List Nat := [31, 28, 31, 30, 31, 30, 31, 31, 30, 31, 30, 31]

def isLeap (y : Nat) : Bool := (y % 4 == 0 && y % 100 != 0) || y % 400 == 0

def yearSecs (y : Nat) : Nat := (if isLeap y then 366 else 365) * 86400

/-! The loops of `dns_time64_totext`. The year `tm_year` counts from 1900. -/

def backYears (year : Nat) (t : Int) : Except TimeError (Nat × Nat) :=
  if t < 0 then
    match year with
    | 0 => .error .range
    | year + 1 => backYears year (t + yearSecs (year + 1900))
  else .ok (year, t.toNat)

def forwardYears (year t : Nat) : Except TimeError (Nat × Nat) :=
  if yearSecs (year + 1900) ≤ t then
    if year + 1 + 1900 > 9999 then .error .range
    else forwardYears (year + 1) (t - yearSecs (year + 1900))
  else .ok (year, t)
termination_by 8100 - year

/-- The list is what the table of the months has left at `mon`. -/
def months (y mon : Nat) : List Nat → Nat → Except TimeError (Nat × Nat)
  | [], _ => .error .overread
  | d :: left, t =>
    let secs := (d + if mon == 1 && isLeap y then 1 else 0) * 86400
    if secs ≤ t then months y (mon + 1) left (t - secs) else .ok (mon, t)

/-- One loop for the days, the hours and the minutes. -/
def countOff (secs n t : Nat) : Nat × Nat :=
  if 0 < secs ∧ secs ≤ t then countOff secs (n + 1) (t - secs) else (n, t)
termination_by t

/-- The numbers of a text. -/
structure Fields where
  year : Nat
  month : Nat
  day : Nat
  hour : Nat
  minute : Nat
  second : Nat
deriving DecidableEq, Repr

/-- What `snprintf` is given: `tm` itself counts the year from 1900 and the month from zero. -/
def brokenDown (t : Int) : Except TimeError Fields := do
  let back ← backYears 70 t
  let forward ← forwardYears back.1 back.2
  let month ← months (forward.1 + 1900) 0 days forward.2
  let day := countOff 86400 1 month.2
  let hour := countOff 3600 0 day.2
  let minute := countOff 60 0 hour.2
  return ⟨forward.1 + 1900, month.1 + 1, day.1, hour.1, minute.1, minute.2⟩

/-- The widths in `%04d%02d%02d%02d%02d%02d`, and in the format of `sscanf`. -/
def widths : List Nat := [4, 2, 2, 2, 2, 2]

def Fields.list (s : Fields) : List Nat := [s.year, s.month, s.day, s.hour, s.minute, s.second]

def Fields.print (s : Fields) : List Char := printFields widths s.list

/-- `dns_time64_totext`; `available` is the length of the region that the target has left. -/
def time64Totext (t : Int) (available : Nat) : Except TimeError (List Char) := do
  let fields ← brokenDown t
  if fields.print.length > available then throw .nospace else return fields.print

/-- `dns_time64_from32`: the epoch closest to the current time. -/
def time64From32 (now value : UInt32) : Int :=
  if serialGt value now then now.toNat + (value - now).toNat else now.toNat - (now - value).toNat

def time32Totext (now value : UInt32) (available : Nat) : Except TimeError (List Char) :=
  time64Totext (time64From32 now value) available

/-- The six numbers that `sscanf` reads from a text of digits. -/
def sscanf (source : List Char) : Option Fields :=
  match scanFields widths source with
  | [year, month, day, hour, minute, second] => some ⟨year, month, day, hour, minute, second⟩
  | _ => none

def Fields.inRange (s : Fields) : Bool :=
  s.year ≤ 9999 && (1 ≤ s.month && s.month ≤ 12) &&
    (1 ≤ s.day && s.day ≤ days.getD (s.month - 1) 0 + if s.month == 2 && isLeap s.year then 1 else 0) &&
    s.hour ≤ 23 && s.minute ≤ 59 && s.second ≤ 60

def Fields.seconds (s : Fields) : Int :=
  let clock : Int := s.second + 60 * s.minute + 3600 * s.hour + (s.day - 1) * 86400
  let month := (days.take (s.month - 1)).foldl (fun (v : Int) (d : Nat) => v + d * 86400) clock
  let leap := if isLeap s.year && s.month > 2 then month + 86400 else month
  if s.year < 1970 then (List.range' s.year (1970 - s.year)).foldr (fun (i : Nat) (v : Int) => v - yearSecs i) leap
  else (List.range' 1970 (s.year - 1970)).foldl (fun (v : Int) (i : Nat) => v + yearSecs i) leap

/-- `dns_time64_fromtext`. -/
def time64Fromtext (source : List Char) : Except TimeError Int :=
  if source.length ≠ 14 then .error .badSyntax
  else if ¬source.all Char.isDigit then .error .badSyntax
  else
    match sscanf source with
    | none => .error .badSyntax
    | some s => if s.inRange then .ok s.seconds else .error .range

def time32Fromtext (source : List Char) : Except TimeError UInt32 := do
  let value64 ← time64Fromtext source
  return .ofNat (value64 % 2 ^ 32).toNat

end OqsBind.Dns.Time
