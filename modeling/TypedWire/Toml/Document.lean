import TypedWire.Entries
import TypedWire.Toml.Quoted
import TypedWire.Toml.Scalar

namespace TypedWire.Toml

inductive Node
  | integer (n : Int)
  | other
  /-- A table; an implicit one was only named on the way to another, a dotted one by a key. -/
  | table (implicit dotted : Bool) (entries : List (String × Node))
  | tables (last : List (String × Node))

abbrev Reader := String → Option (List (String × Node))

namespace Node

def empty : Node := .table false false []

def entries : Node → List (String × Node)
  | .table _ _ es => es
  | .tables es => es
  | _ => []

def withEntries : Node → List (String × Node) → Node
  | .table i d _, es => .table i d es
  | .tables _, es => .tables es
  | n, _ => n

def isDotted : Node → Bool
  | .table _ d _ => d
  | _ => false

/-- The node that a path steps through; a dotted key may not step into a table with a header. -/
def steppable (dotted : Bool) : Option Node → Option Node
  | none => some (.table true dotted [])
  | some (.table i d es) => if dotted && !i then none else some (.table i d es)
  | some (.tables es) => some (.tables es)
  | some _ => none

def change (dotted : Bool) (f : Node → Option Node) : List String → Node → Option Node
  | [], n => f n
  | k :: ks, n => do
    let child ← change dotted f ks (← steppable dotted (Entries.get? k n.entries))
    some (n.withEntries (Entries.put k child n.entries))

def add (n : Node) (k : String) (v : Node) : Option Node :=
  match Entries.get? k n.entries with
  | some _ => none
  | none => some (n.withEntries (Entries.put k v n.entries))

/-- Adds a value under a key; a table is filled by dotted keys alone or not at all by them. -/
def addAt (n : Node) (path : List String) (k : String) (v : Node) : Option Node :=
  n.change true (fun t => if t.isDotted == path.isEmpty then none else t.add k v) path

def openTable (k : String) (n : Node) : Option Node :=
  match Entries.get? k n.entries with
  | none => n.add k .empty
  | some (.table true false es) =>
    some (n.withEntries (Entries.put k (.table false false es) n.entries))
  | some _ => none

def openNext (k : String) (n : Node) : Option Node :=
  match Entries.get? k n.entries with
  | none => n.add k (.tables [])
  | some (.tables _) => some (n.withEntries (Entries.put k (.tables []) n.entries))
  | some _ => none

end Node

def maxDepth : Nat := 79

def skipBlanks (cs : List Char) : List Char := cs.dropWhile isBlank

def skipGap (comment : Bool) : List Char → List Char
  | [] => []
  | '\r' :: '\n' :: cs => skipGap false cs
  | c :: cs =>
    if c == '\n' then skipGap false cs
    else if comment then if isPlain c then skipGap true cs else c :: cs
    else if isBlank c then skipGap false cs
    else if c == '#' then skipGap true cs
    else c :: cs

def afterLine? (cs : List Char) : Option (List Char) :=
  let cs := skipBlanks cs
  let cs := if cs.head? = some '#' then cs.dropWhile isPlain else cs
  match cs with
  | [] => some []
  | '\n' :: cs => some cs
  | '\r' :: '\n' :: cs => some cs
  | _ => none

def isBare (c : Char) : Bool := c.isAlphanum || c == '-' || c == '_'

def simpleKey? : List Char → Option (String × List Char)
  | '"' :: cs => (basic? cs).map fun (k, cs) => (String.ofList k, cs)
  | '\'' :: cs => (literal? cs).map fun (k, cs) => (String.ofList k, cs)
  | cs =>
    match cs.takeWhile isBare with
    | [] => none
    | k => some (String.ofList k, cs.dropWhile isBare)

def key? : (room : Nat) → List Char → Option (List String × List Char)
  | 0, _ => none
  | room + 1, cs => do
    let (k, cs) ← simpleKey? (skipBlanks cs)
    match skipBlanks cs with
    | '.' :: cs =>
      let (ks, cs) ← key? room cs
      some (k :: ks, cs)
    | cs => some ([k], cs)

abbrev ValueReader := List Char → Option (Node × List Char)

def keyValue? (value : ValueReader) (cs : List Char) :
    Option ((List String × String × Node) × List Char) := do
  let (ks, cs) ← key? maxDepth cs
  let k ← ks.getLast?
  let '=' :: cs := cs | none
  let (v, cs) ← value (skipBlanks cs)
  some ((ks.dropLast, k, v), cs)

def afterItems? (value : ValueReader) : (fuel : Nat) → List Char → Option (List Char)
  | 0, _ => none
  | fuel + 1, cs =>
    match skipGap false cs with
    | ']' :: cs => some cs
    | cs => do
      let (_, cs) ← value cs
      match skipGap false cs with
      | ',' :: cs => afterItems? value fuel cs
      | ']' :: cs => some cs
      | _ => none

def afterPairs? (value : ValueReader) : (fuel : Nat) → Node → List Char → Option (List Char)
  | 0, _, _ => none
  | fuel + 1, n, cs => do
    let ((path, k, v), cs) ← keyValue? value cs
    let n ← n.addAt path k v
    match skipBlanks cs with
    | ',' :: cs => afterPairs? value fuel n cs
    | '\x7d' :: cs => some cs
    | _ => none

def value? : (room : Nat) → ValueReader
  | room, cs =>
    match cs with
    | '"' :: '"' :: '"' :: cs => (afterBasicLines? false cs).map fun cs => (.other, cs)
    | '"' :: cs => (basic? cs).map fun (_, cs) => (.other, cs)
    | '\'' :: '\'' :: '\'' :: cs => (afterLiteralLines? cs).map fun cs => (.other, cs)
    | '\'' :: cs => (literal? cs).map fun (_, cs) => (.other, cs)
    | '[' :: cs =>
      match room with
      | 0 => none
      | room + 1 => (afterItems? (value? room) (cs.length + 1) cs).map fun cs => (.other, cs)
    | '\x7b' :: cs =>
      match room with
      | 0 => none
      | room + 1 =>
        match skipBlanks cs with
        | '\x7d' :: cs => some (.other, cs)
        | cs => (afterPairs? (value? room) (cs.length + 1) .empty cs).map fun cs => (.other, cs)
    | cs =>
      let (word, cs) := takeScalar cs
      (scalar? word).map fun
        | some n => (.integer n, cs)
        | none => (.other, cs)

def readLines : (fuel : Nat) → (path : List String) → Node → List Char → Option Node
  | 0, _, _, _ => none
  | fuel + 1, path, root, cs =>
    match skipGap false cs with
    | [] => some root
    | '[' :: '[' :: cs => do
      let (ks, cs) ← key? maxDepth cs
      let k ← ks.getLast?
      let ']' :: ']' :: cs := cs | none
      readLines fuel ks (← root.change false (Node.openNext k) ks.dropLast) (← afterLine? cs)
    | '[' :: cs => do
      let (ks, cs) ← key? maxDepth cs
      let k ← ks.getLast?
      let ']' :: cs := cs | none
      readLines fuel ks (← root.change false (Node.openTable k) ks.dropLast) (← afterLine? cs)
    | cs => do
      let ((keys, k, v), cs) ← keyValue? (value? maxDepth) cs
      readLines fuel path (← root.change false (fun n => n.addAt keys k v) path) (← afterLine? cs)

/-- The table that a document writes; a byte order mark may stand before it. -/
def parse? : Reader := fun text =>
  let cs :=
    match text.toList with
    | '\ufeff' :: cs => cs
    | cs => cs
  (readLines (cs.length + 1) [] .empty cs).map Node.entries

end TypedWire.Toml
