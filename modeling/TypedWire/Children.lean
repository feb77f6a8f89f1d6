import TypedWire.Tree

namespace TypedWire

def positionBound : Nat := Nat.pow 2 31

def position (n : Nat) : Checked Int32 :=
  if n < positionBound then .ok (Int32.ofNat n) else .error (.unsupportedShape (.position n))

def expectPositionsFrom (n : Nat) : List Key → Checked Unit
  | [] => .ok ()
  | i :: rest => do
    let expected ← position n
    if i = .index expected then expectPositionsFrom (n + 1) rest
    else .error (.positionMismatch n i.text)

def expectPositions (ids : List Key) : Checked Unit := expectPositionsFrom 0 ids

variable {α : Type _}

def packEachFrom (n : Nat) (pack : Int32 → α → Checked Element) : List α → Checked (List Element)
  | [] => .ok []
  | x :: xs => do
    let e ← pack (← position n) x
    return e :: (← packEachFrom (n + 1) pack xs)

def packEach (pack : Int32 → α → Checked Element) (xs : List α) : Checked (List Element) :=
  packEachFrom 0 pack xs

def least? : List String → Option String
  | [] => none
  | s :: rest => some (rest.foldl (fun a b => if b < a then b else a) s)

/-- Children under distinct names that have not been asked for yet. -/
structure NamedChildren (α : Type _) where
  entries : List (String × α)

namespace NamedChildren

def extend (seen : List (String × α)) : List (Key × α) → Checked (NamedChildren α)
  | [] => .ok ⟨seen⟩
  | (.index i, _) :: _ => .error (.unexpectedElement (Key.index i).text)
  | (.name s, x) :: rest =>
    if seen.any (·.1 = s) then .error (.duplicateKey s) else extend (seen ++ [(s, x)]) rest

def ofList (xs : List (Key × α)) : Checked (NamedChildren α) := extend [] xs

def take (c : NamedChildren α) (s : String) : Checked (α × NamedChildren α) :=
  match c.entries.lookup s with
  | some x => .ok (x, ⟨c.entries.filter (·.1 ≠ s)⟩)
  | none => .error (.missingElement s)

def expectNone (c : NamedChildren α) : Checked Unit :=
  match least? (c.entries.map (·.1)) with
  | some s => .error (.unexpectedElement s)
  | none => .ok ()

end NamedChildren

end TypedWire
