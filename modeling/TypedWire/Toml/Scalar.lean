import TypedWire.Digits

namespace TypedWire.Toml

def groupsAfter (isDigit : Char → Bool) : List Char → Option (List Char)
  | [] => some []
  | '_' :: c :: cs => if isDigit c then (groupsAfter isDigit cs).map (c :: ·) else none
  | c :: cs => if isDigit c then (groupsAfter isDigit cs).map (c :: ·) else none

def groups (isDigit : Char → Bool) : List Char → Option (List Char)
  | [] => none
  | c :: cs => if isDigit c then (groupsAfter isDigit cs).map (c :: ·) else none

def isHexDigit (c : Char) : Bool :=
  c.isDigit || ('a' ≤ c && c ≤ 'f') || ('A' ≤ c && c ≤ 'F')

def digitValue (c : Char) : Nat :=
  if c.isDigit then c.toNat - '0'.toNat
  else if 'a' ≤ c then c.toNat - 'a'.toNat + 10
  else c.toNat - 'A'.toNat + 10

def inBase (base : Nat) (ds : List Char) : Nat := ds.foldl (fun n c => base * n + digitValue c) 0

def intInBase (base : Nat) (ds : List Char) : Int := inBase base ds

def decimal? (cs : List Char) : Option (List Char) := do
  let ds ← groups Char.isDigit cs
  match cs with
  | '0' :: _ :: _ => none
  | _ => some ds

def integer? (cs : List Char) : Option Int := do
  let n : Int ←
    match cs with
    | '0' :: 'x' :: cs => (groups isHexDigit cs).map (intInBase 16)
    | '0' :: 'o' :: cs => (groups (fun c => '0' ≤ c && c ≤ '7') cs).map (intInBase 8)
    | '0' :: 'b' :: cs => (groups (fun c => c == '0' || c == '1') cs).map (intInBase 2)
    | '-' :: cs => (decimal? cs).map fun ds => -intInBase 10 ds
    | '+' :: cs => (decimal? cs).map (intInBase 10)
    | cs => (decimal? cs).map (intInBase 10)
  if -Nat.pow 2 63 ≤ n ∧ n < Nat.pow 2 63 then some n else none

def exponent? : List Char → Option Int
  | [] => some 0
  | e :: cs =>
    if e ≠ 'e' ∧ e ≠ 'E' then none
    else
      match cs with
      | '-' :: cs => (groups Char.isDigit cs).map fun ds => -intInBase 10 ds
      | '+' :: cs => (groups Char.isDigit cs).map (intInBase 10)
      | cs => (groups Char.isDigit cs).map (intInBase 10)

def isFinite (n : Nat) (e : Int) : Bool :=
  let magnitude := (Nat.toDigits 10 n).length + e
  n == 0 || magnitude < 300 ||
    (magnitude < 320 &&
      if 0 ≤ e then n * Nat.pow 10 e.toNat < Nat.pow 2 1024 - Nat.pow 2 970
      else n < (Nat.pow 2 1024 - Nat.pow 2 970) * Nat.pow 10 (-e).toNat)

def isExponentMark (c : Char) : Bool := c == 'e' || c == 'E'

/-- A number with a fraction or an exponent; a positive one must be finite. -/
def isFloat (cs : List Char) : Bool :=
  let (negative, cs) :=
    match cs with
    | '-' :: cs => (true, cs)
    | '+' :: cs => (false, cs)
    | cs => (false, cs)
  let whole := cs.takeWhile fun c => !(c == '.' || isExponentMark c)
  let rest := cs.dropWhile fun c => !(c == '.' || isExponentMark c)
  let parts : Option (Nat × Int) := do
    let ds ← decimal? whole
    match rest with
    | '.' :: rest =>
      let fraction ← groups Char.isDigit (rest.takeWhile fun c => !isExponentMark c)
      let e ← exponent? (rest.dropWhile fun c => !isExponentMark c)
      some (inBase 10 (ds ++ fraction), e - fraction.length)
    | _ :: _ => some (inBase 10 ds, ← exponent? rest)
    | [] => none
  match parts with
  | some (n, e) => negative || isFinite n e
  | none =>
    let special := String.ofList cs
    special == "inf" || special == "nan"

def twoDigits? : List Char → Option (Nat × List Char)
  | a :: b :: cs =>
    if a.isDigit && b.isDigit then some (10 * digitValue a + digitValue b, cs) else none
  | _ => none

def isLeapYear (year : Nat) : Bool := year % 4 == 0 && (year % 100 != 0 || year % 400 == 0)

def daysInMonth (year month : Nat) : Nat :=
  if month = 2 then if isLeapYear year then 29 else 28
  else if month = 4 ∨ month = 6 ∨ month = 9 ∨ month = 11 then 30
  else 31

def afterDate? (cs : List Char) : Option (List Char) := do
  let (century, cs) ← twoDigits? cs
  let (year, cs) ← twoDigits? cs
  let '-' :: cs := cs | none
  let (month, cs) ← twoDigits? cs
  let '-' :: cs := cs | none
  let (day, cs) ← twoDigits? cs
  if 1 ≤ month ∧ month ≤ 12 ∧ 1 ≤ day ∧ day ≤ daysInMonth (100 * century + year) month then some cs
  else none

/-- What follows a time; a minute may have sixty-one seconds. -/
def afterTime? (cs : List Char) : Option (List Char) := do
  let (hour, cs) ← twoDigits? cs
  let ':' :: cs := cs | none
  let (minute, cs) ← twoDigits? cs
  let ':' :: cs := cs | none
  let (second, cs) ← twoDigits? cs
  if 24 ≤ hour ∨ 60 ≤ minute ∨ 61 ≤ second then none
  else
    match cs with
    | '.' :: c :: cs => if c.isDigit then some (cs.dropWhile Char.isDigit) else none
    | '.' :: [] => none
    | cs => some cs

def isOffset : List Char → Bool
  | [] => true
  | ['Z'] => true
  | ['z'] => true
  | [s, a, b, ':', c, d] =>
    (s == '+' || s == '-') &&
      match twoDigits? [a, b], twoDigits? [c, d] with
      | some (hour, _), some (minute, _) => hour < 24 && minute < 60
      | _, _ => false
  | _ => false

def isDateTime (cs : List Char) : Bool :=
  match afterDate? cs with
  | some [] => true
  | some (sep :: cs) =>
    (sep == 'T' || sep == 't' || sep == ' ') && ((afterTime? cs).map isOffset).getD false
  | none => afterTime? cs == some []

def isScalarChar (c : Char) : Bool :=
  c.isAlphanum || c == '+' || c == '-' || c == '_' || c == '.' || c == ':'

/-- A scalar and what follows it; a space may stand between a date and its time. -/
def takeScalar (cs : List Char) : List Char × List Char :=
  let word := cs.takeWhile isScalarChar
  match cs.dropWhile isScalarChar with
  | ' ' :: rest =>
    if (afterDate? word).isSome ∧ (twoDigits? rest).isSome then
      (word ++ ' ' :: rest.takeWhile isScalarChar, rest.dropWhile isScalarChar)
    else (word, ' ' :: rest)
  | rest => (word, rest)

def scalar? (cs : List Char) : Option (Option Int) :=
  match integer? cs with
  | some n => some (some n)
  | none =>
    let word := String.ofList cs
    if word == "true" || word == "false" || isFloat cs || isDateTime cs then some none else none

end TypedWire.Toml
