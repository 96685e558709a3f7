/-!
# Unquoted TOML scalars

Booleans, numbers, dates and times. No setting is a number or a date, so they are only told apart
from what is no scalar at all; this includes the range of numbers and the calendar.
-/

namespace Menus.Toml

/-- A character that an unquoted scalar can hold. -/
def isScalarChar (c : Char) : Bool :=
  c.isAlphanum || c = '_' || c = '+' || c = '-' || c = '.' || c = ':'

/-- A digit of a number with the given base. -/
def isDigitOf (base : Nat) (c : Char) : Bool :=
  if base = 16 then c.isDigit || ('a' ≤ c && c ≤ 'f') || ('A' ≤ c && c ≤ 'F')
  else '0' ≤ c && c.toNat < '0'.toNat + base

/-- The value of a digit. -/
def digitValue (c : Char) : Nat :=
  if c.isDigit then c.toNat - '0'.toNat
  else if 'a' ≤ c then c.toNat - 'a'.toNat + 10
  else c.toNat - 'A'.toNat + 10

/-- Digits, in which single underscores may stand between two of them. `between` says that an
underscore may come next. -/
def takeDigits (base : Nat) (between : Bool) : List Char → Option (List Char × List Char)
  | [] => if between then some ([], []) else none
  | c :: chars =>
    if isDigitOf base c then
      (takeDigits base true chars).map fun (digits, rest) => (c :: digits, rest)
    else if c = '_' && between then takeDigits base false chars
    else if between then some ([], c :: chars)
    else none

/-- The number that some digits write. -/
def numberOf (base : Nat) (digits : List Char) : Nat :=
  digits.foldl (fun value c => base * value + digitValue c) 0

/-- The first number that does not fit into so many bits. -/
def bitBound (bits : Nat) : Nat := Nat.pow 2 bits

/-- A sign and what follows it. -/
def takeSign : List Char → Bool × List Char
  | '+' :: chars => (false, chars)
  | '-' :: chars => (true, chars)
  | chars => (false, chars)

/-- Digits of a decimal number, without a zero in front of others. -/
def takeWhole (chars : List Char) : Option (List Char × List Char) :=
  match takeDigits 10 false chars with
  | some ('0' :: _ :: _, _) => none
  | taken => taken

/-- A number in base 16, 8 or 2, which fits into 128 bits. -/
def isPrefixedInteger : List Char → Bool
  | '0' :: 'x' :: chars => fits 16 chars
  | '0' :: 'o' :: chars => fits 8 chars
  | '0' :: 'b' :: chars => fits 2 chars
  | _ => false
where
  /-- All of the characters are digits of a number that fits. -/
  fits (base : Nat) (chars : List Char) : Bool :=
    match takeDigits base false chars with
    | some (digits, []) => numberOf base digits < bitBound 128
    | _ => false

/-- A decimal integer that fits into 128 bits, with or without a sign. -/
def isInteger (chars : List Char) : Bool :=
  let (negative, chars) := takeSign chars
  match takeWhole chars with
  | some (digits, []) =>
    let bound := if negative then bitBound 127 + 1 else bitBound 128
    numberOf 10 digits < bound
  | _ => false

/-- Whether the decimal `digits · 10 ^ (up - down)` is rounded to a finite number of double
precision. -/
def isFinite (digits : Nat) (up down : Nat) : Bool :=
  digits = 0 || (Nat.toDigits 10 digits).length + up ≤ 300 + down ||
    ((Nat.toDigits 10 digits).length + up ≤ 400 + down &&
      digits * Nat.pow 10 (up - down) < (bitBound 1024 - bitBound 970) * Nat.pow 10 (down - up))

/-- A decimal number with a fraction, an exponent or both, or a number without digits. -/
def isFloat (chars : List Char) : Bool :=
  let (_, chars) := takeSign chars
  if chars = ['i', 'n', 'f'] || chars = ['n', 'a', 'n'] then true
  else
    match takeWhole chars with
    | none => false
    | some (whole, chars) =>
      let fraction := match chars with
        | '.' :: chars => takeDigits 10 false chars
        | _ => some ([], chars)
      match fraction with
      | none => false
      | some (digits, rest) =>
        let mantissa := numberOf 10 (whole ++ digits)
        match rest with
        | [] => rest ≠ chars && isFinite mantissa 0 digits.length
        | e :: rest =>
          if e = 'e' || e = 'E' then
            let (negative, rest) := takeSign rest
            match takeDigits 10 false rest with
            | some (exponent, []) =>
              if negative then isFinite mantissa 0 (digits.length + numberOf 10 exponent)
              else isFinite mantissa (numberOf 10 exponent) digits.length
            | _ => false
          else false

/-- A number of exactly so many decimal digits. -/
def takeNumber (count : Nat) (chars : List Char) : Option (Nat × List Char) :=
  let digits := chars.take count
  if digits.length = count && digits.all Char.isDigit then
    some (numberOf 10 digits, chars.drop count)
  else none

/-- The days of a month. -/
def daysIn (year month : Nat) : Nat :=
  if month = 2 then
    if year % 4 = 0 && (year % 100 != 0 || year % 400 = 0) then 29 else 28
  else if month = 4 || month = 6 || month = 9 || month = 11 then 30
  else 31

/-- What follows a calendar date. -/
def afterDate? (chars : List Char) : Option (List Char) := do
  let (year, chars) ← takeNumber 4 chars
  let '-' :: chars := chars | none
  let (month, chars) ← takeNumber 2 chars
  let '-' :: chars := chars | none
  let (day, chars) ← takeNumber 2 chars
  if 1 ≤ month && month ≤ 12 && 1 ≤ day && day ≤ daysIn year month then some chars else none

/-- What follows a time of day, whose seconds may be missing and may have a fraction. -/
def afterTime? (chars : List Char) : Option (List Char) := do
  let (hour, chars) ← takeNumber 2 chars
  let ':' :: chars := chars | none
  let (minute, chars) ← takeNumber 2 chars
  if 23 < hour || 59 < minute then none
  else
    match chars with
    | ':' :: chars =>
      let (second, chars) ← takeNumber 2 chars
      if 60 < second then none
      else
        match chars with
        | '.' :: c :: chars => if c.isDigit then some (chars.dropWhile Char.isDigit) else none
        | ['.'] => none
        | chars => some chars
    | chars => some chars

/-- A distance from universal time, or nothing at all. -/
def isZone (chars : List Char) : Bool :=
  match chars with
  | [] => true
  | ['Z'] => true
  | ['z'] => true
  | sign :: chars =>
    (sign = '+' || sign = '-') &&
      match takeNumber 2 chars with
      | some (hour, ':' :: chars) =>
        match takeNumber 2 chars with
        | some (minute, []) => hour ≤ 23 && minute ≤ 59
        | _ => false
      | _ => false

/-- A date, a time, or a date with a time, which may come with a zone. -/
def isMoment (chars : List Char) : Bool :=
  match afterDate? chars with
  | some [] => true
  | some (c :: chars) =>
    (c = 'T' || c = 't' || c = ' ') && (afterTime? chars).any isZone
  | none => afterTime? chars = some []

/-- A number, a date or a time. -/
def isUnquoted (chars : List Char) : Bool :=
  isInteger chars || isPrefixedInteger chars || isFloat chars || isMoment chars

end Menus.Toml
