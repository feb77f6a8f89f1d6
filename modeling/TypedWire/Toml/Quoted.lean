namespace TypedWire.Toml

def isBlank (c : Char) : Bool := c == ' ' || c == '\t'

def isPlain (c : Char) : Bool := c == '\t' || (' ' ≤ c && c != '\x7f')

def hexValue? (c : Char) : Option Nat :=
  if c.isDigit then some (c.toNat - '0'.toNat)
  else if 'a' ≤ c && c ≤ 'f' then some (c.toNat - 'a'.toNat + 10)
  else if 'A' ≤ c && c ≤ 'F' then some (c.toNat - 'A'.toNat + 10)
  else none

def charOfHex? (ds : List Char) : Option Char := do
  let n ← ds.foldlM (fun n c => (16 * n + ·) <$> hexValue? c) 0
  if n.isValidChar then some (Char.ofNat n) else none

def escape? : Char → Option Char
  | 'b' => some '\x08'
  | 't' => some '\t'
  | 'n' => some '\n'
  | 'f' => some '\x0c'
  | 'r' => some '\r'
  | '"' => some '"'
  | '\\' => some '\\'
  | _ => none

def basic? : List Char → Option (List Char × List Char)
  | [] => none
  | '"' :: cs => some ([], cs)
  | '\\' :: 'u' :: a :: b :: c :: d :: cs => do
    let x ← charOfHex? [a, b, c, d]
    let (text, rest) ← basic? cs
    some (x :: text, rest)
  | '\\' :: 'U' :: a :: b :: c :: d :: e :: f :: g :: h :: cs => do
    let x ← charOfHex? [a, b, c, d, e, f, g, h]
    let (text, rest) ← basic? cs
    some (x :: text, rest)
  | '\\' :: c :: cs => do
    let x ← escape? c
    let (text, rest) ← basic? cs
    some (x :: text, rest)
  | c :: cs =>
    if isPlain c && c != '\\' then (basic? cs).map fun (text, rest) => (c :: text, rest) else none

def literal? : List Char → Option (List Char × List Char)
  | [] => none
  | '\'' :: cs => some ([], cs)
  | c :: cs => if isPlain c then (literal? cs).map fun (text, rest) => (c :: text, rest) else none

/-- At most two quotes before the closing three belong to the text. -/
def dropQuotes (quote : Char) : List Char → List Char
  | a :: b :: cs =>
    if a == quote then if b == quote then cs else b :: cs else a :: b :: cs
  | a :: [] => if a == quote then [] else [a]
  | [] => []

/-- What follows a basic string over several lines. After a backslash (`slash`) only blanks may come
before the end of the line; the break and the blanks behind it are no part of the text. -/
def afterBasicLines? (slash : Bool) : List Char → Option (List Char)
  | [] => none
  | '"' :: '"' :: '"' :: cs => if slash then none else some (dropQuotes '"' cs)
  | '\r' :: '\n' :: cs => afterBasicLines? false cs
  | '\\' :: 'u' :: a :: b :: c :: d :: cs =>
    if !slash && (charOfHex? [a, b, c, d]).isSome then afterBasicLines? false cs else none
  | '\\' :: 'U' :: a :: b :: c :: d :: e :: f :: g :: h :: cs =>
    if !slash && (charOfHex? [a, b, c, d, e, f, g, h]).isSome then afterBasicLines? false cs
    else none
  | '\\' :: c :: cs =>
    if slash then none
    else if (escape? c).isSome then afterBasicLines? false cs
    else afterBasicLines? true (c :: cs)
  | c :: cs =>
    if c == '\n' then afterBasicLines? false cs
    else if isBlank c then afterBasicLines? slash cs
    else if !slash && isPlain c && c != '\\' then afterBasicLines? false cs
    else none

def afterLiteralLines? : List Char → Option (List Char)
  | [] => none
  | '\'' :: '\'' :: '\'' :: cs => some (dropQuotes '\'' cs)
  | '\r' :: '\n' :: cs => afterLiteralLines? cs
  | c :: cs => if isPlain c || c == '\n' then afterLiteralLines? cs else none

end TypedWire.Toml
