namespace TypedWire

def digitsFrom (acc : Nat) : List Char → Option Nat
  | [] => some acc
  | c :: cs => if c.isDigit then digitsFrom (10 * acc + (c.toNat - '0'.toNat)) cs else none

def digits? : List Char → Option Nat
  | [] => none
  | cs => digitsFrom 0 cs

def natOfText? (s : String) : Option Nat :=
  match s.toList with
  | '+' :: cs => digits? cs
  | cs => digits? cs

def intOfText? (s : String) : Option Int :=
  match s.toList with
  | '+' :: cs => (digits? cs).map Int.ofNat
  | '-' :: cs => (digits? cs).map fun n => -(n : Int)
  | cs => (digits? cs).map Int.ofNat

def int32OfText? (s : String) : Option Int32 :=
  match intOfText? s with
  | some n => if -Nat.pow 2 31 ≤ n ∧ n < Nat.pow 2 31 then some (Int32.ofInt n) else none
  | none => none

end TypedWire
