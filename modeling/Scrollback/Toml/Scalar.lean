import Scrollback.Toml.Scanner
import Scrollback.Toml.Value

/-!
This module contains the reading of strings, numbers and times.
-/

namespace Scrollback

namespace Toml

namespace Scanner

/-! ### Strings -/

def hexDigit (char : Char) : Nat :=
  if char.isDigit then char.toNat - '0'.toNat
  else if char ≤ 'F' then char.toNat - 'A'.toNat + 10
  else char.toNat - 'a'.toNat + 10

def isHexDigit (char : Char) : Bool :=
  char.isDigit || ('a' ≤ char && char ≤ 'f') || ('A' ≤ char && char ≤ 'F')

def codePoint (digits : Nat) : Scanner Char := do
  let code := (← takeExactly isHexDigit digits).foldl (fun n digit => 16 * n + hexDigit digit) 0
  if _h : code.isValidChar then
    return Char.ofNat code
  else
    failure

def escaped : Scanner Char := do
  match ← takeIf fun _ => true with
  | 'b' => return '\x08'
  | 't' => return '\t'
  | 'n' => return '\n'
  | 'f' => return '\x0c'
  | 'r' => return '\r'
  | '"' => return '"'
  | '\\' => return '\\'
  | 'u' => codePoint 4
  | 'U' => codePoint 8
  | _ => failure

def basicRest : (fuel : Nat) → Scanner (List Char)
  | 0 => failure
  | fuel + 1 => do
    match ← takeIf isPrintable with
    | '"' => return []
    | '\\' => do
      let char ← escaped
      return char :: (← basicRest fuel)
    | char => return char :: (← basicRest fuel)

def literalRest : Scanner (List Char) := do
  let text ← takeWhile fun char => isPrintable char && char ≠ '\''
  expect "'"
  return text

/--
Quotes within a string in triple quotes, or the ones at its end. Returns those that belong to the
text and whether the string ends. Up to two quotes may stand before the closing ones.
-/
def quotes (quote : Char) : Scanner (List Char × Bool) := do
  let text ← get
  let count := min (text.takeWhile (· = quote)).length 5
  set (text.drop count)
  if count < 3 then
    return (List.replicate count quote, false)
  else
    return (List.replicate (count - 3) quote, true)

def multilineBasicRest : (fuel : Nat) → Scanner (List Char)
  | 0 => failure
  | fuel + 1 => do
    match ← peek? with
    | none => failure
    | some '"' => do
      let (text, closed) ← quotes '"'
      if closed then return text else return text ++ (← multilineBasicRest fuel)
    | some '\\' => do
      expect "\\"
      let foldsLine ← (do skipBlanks; lineBreak; return true) <|> pure false
      if foldsLine then
        skipBreaks (← get).length
        multilineBasicRest fuel
      else
        let char ← escaped
        return char :: (← multilineBasicRest fuel)
    | some '\n' | some '\r' => do
      lineBreak
      return '\n' :: (← multilineBasicRest fuel)
    | some _ => do
      let char ← takeIf isPrintable
      return char :: (← multilineBasicRest fuel)

def multilineLiteralRest : (fuel : Nat) → Scanner (List Char)
  | 0 => failure
  | fuel + 1 => do
    match ← peek? with
    | none => failure
    | some '\'' => do
      let (text, closed) ← quotes '\''
      if closed then return text else return text ++ (← multilineLiteralRest fuel)
    | some '\n' | some '\r' => do
      lineBreak
      return '\n' :: (← multilineLiteralRest fuel)
    | some _ => do
      let char ← takeIf isPrintable
      return char :: (← multilineLiteralRest fuel)

def quoted : Scanner String := do
  let fuel := (← get).length + 1
  if ← accept "\"" then
    return String.ofList (← basicRest fuel)
  else
    expect "'"
    return String.ofList (← literalRest)

def string : Scanner String := do
  let fuel := (← get).length + 1
  if ← accept "\"\"\"" then
    lineBreak <|> pure ()
    return String.ofList (← multilineBasicRest fuel)
  else if ← accept "'''" then
    lineBreak <|> pure ()
    return String.ofList (← multilineLiteralRest fuel)
  else
    quoted

/-! ### Numbers -/

def moreDigits (p : Char → Bool) : (fuel : Nat) → Scanner (List Char)
  | 0 => return []
  | fuel + 1 =>
    (do
      discard (accept "_")
      let digit ← takeIf p
      return digit :: (← moreDigits p fuel)) <|> pure []

def digits (p : Char → Bool) : Scanner (List Char) := do
  let first ← takeIf p
  let fuel := (← get).length
  return first :: (← moreDigits p fuel)

def ofDigits (base : Nat) (digits : List Char) : Nat :=
  digits.foldl (fun n digit => base * n + hexDigit digit) 0

def sign : Scanner Bool := do
  if ← accept "-" then
    return true
  else
    discard (accept "+")
    return false

def decimal : Scanner (List Char) := do
  if ← accept "0" then return ['0'] else digits Char.isDigit

def integerValue (number : Int) : Scanner Value := do
  guard (Int64.minValue.toInt ≤ number && number ≤ Int64.maxValue.toInt)
  return .integer number

def integer : Scanner Value := do
  if ← accept "0x" then
    integerValue (ofDigits 16 (← digits isHexDigit))
  else if ← accept "0o" then
    integerValue (ofDigits 8 (← digits fun char => '0' ≤ char && char ≤ '7'))
  else if ← accept "0b" then
    integerValue (ofDigits 2 (← digits fun char => char = '0' || char = '1'))
  else
    let negative ← sign
    let number : Int := ofDigits 10 (← decimal)
    integerValue (if negative then -number else number)

def exponent? : Scanner (Option Int) := do
  if (← accept "e") || (← accept "E") then
    let negative ← sign
    let number : Int := ofDigits 10 (← digits Char.isDigit)
    return some (if negative then -number else number)
  else
    return none

/--
The least number, halves being rounded to even, that is rounded to infinity in 64 bits.
-/
def overflowBound : Nat := 1 <<< 1024 - 1 <<< 970

def overflows (digits : List Char) (exponent : Int) : Bool :=
  let significant := digits.dropWhile (· = '0')
  let number := ofDigits 10 significant
  let size : Int := significant.length + exponent
  if significant = [] || size < 309 then
    false
  else if 309 < size then
    true
  else if exponent < 0 then
    overflowBound * Nat.pow 10 exponent.natAbs ≤ number
  else
    overflowBound ≤ number * Nat.pow 10 exponent.toNat

def float : Scanner Value := do
  let negative ← sign
  if (← accept "inf") || (← accept "nan") then
    return .float
  let whole ← decimal
  let fraction ← if ← accept "." then digits Char.isDigit else pure []
  let exponent ← exponent?
  guard (fraction ≠ [] || exponent.isSome)
  guard (negative || !overflows (whole ++ fraction) (exponent.getD 0 - fraction.length))
  return .float

/-! ### Times -/

def fixedNumber (size low high : Nat) : Scanner Nat := do
  let number := ofDigits 10 (← takeExactly Char.isDigit size)
  guard (low ≤ number && number ≤ high)
  return number

def daysOfMonth (year month : Nat) : Nat :=
  if month = 2 then
    if year % 4 = 0 && (year % 100 ≠ 0 || year % 400 = 0) then 29 else 28
  else if month = 4 || month = 6 || month = 9 || month = 11 then
    30
  else
    31

def date : Scanner Unit := do
  let year ← fixedNumber 4 0 9999
  expect "-"
  let month ← fixedNumber 2 1 12
  expect "-"
  discard (fixedNumber 2 1 (daysOfMonth year month))

def timeOfDay : Scanner Unit := do
  discard (fixedNumber 2 0 23)
  expect ":"
  discard (fixedNumber 2 0 59)
  expect ":"
  discard (fixedNumber 2 0 60)
  if ← accept "." then
    discard (takeIf Char.isDigit)
    discard (takeWhile Char.isDigit)

def timeOffset : Scanner Unit := do
  if (← accept "Z") || (← accept "z") then
    return ()
  discard (takeIf fun char => char = '+' || char = '-')
  discard (fixedNumber 2 0 23)
  expect ":"
  discard (fixedNumber 2 0 59)

def time : Scanner Value := do
  (do
    date
    (do
      discard (takeIf fun char => char = 'T' || char = 't' || char = ' ')
      timeOfDay
      timeOffset <|> pure ()) <|> pure ()) <|> timeOfDay
  return .time

/-! ### All of them -/

def scalar : Scanner Value := do
  match ← peek? with
  | some '"' | some '\'' => return .string (← string)
  | some 't' => do expect "true"; return .boolean true
  | some 'f' => do expect "false"; return .boolean false
  | _ => time <|> float <|> integer

end Scanner

end Toml

end Scrollback
