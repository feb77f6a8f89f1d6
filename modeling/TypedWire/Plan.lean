import TypedWire.Region

namespace TypedWire

def itemsPerMessage (limit size : Nat) : Checked Nat :=
  if size = 0 then .error (.unsupportedShape .zeroWidth)
  else if limit / size = 0 then .error (.unsupportedShape (.overLimit size limit))
  else .ok (limit / size)

structure Chunk (ι : Type) where
  offset : ι
  pos : ι
  count : ι
  deriving DecidableEq

structure FlatPlan where
  pos : Nat
  count : Nat
  offset : Nat
  max : Nat

namespace FlatPlan

def make (pos count max : Nat) : FlatPlan := ⟨pos, count, 0, Nat.max max 1⟩

def next? (p : FlatPlan) : Option (Chunk Nat × FlatPlan) :=
  let left := p.count - p.offset
  if left = 0 then none
  else
    let n := min left p.max
    some (⟨p.offset, p.pos + p.offset, n⟩, { p with offset := p.offset + n })

def hint (p : FlatPlan) : Nat := ceilDiv (p.count - p.offset) p.max

def take : Nat → FlatPlan → List (Chunk Nat)
  | 0, _ => []
  | n + 1, p =>
    match p.next? with
    | some (c, p) => c :: take n p
    | none => []

def chunks (p : FlatPlan) : List (Chunk Nat) := p.take p.hint

/-- The first `n` chunks of any plan; a proxy checks its request before it plans. -/
def takeChecked (n : Nat) (p : FlatPlan) : Checked (List (Chunk Nat)) :=
  if ∀ c ∈ p.take n, c.pos < wordBound then .ok (p.take n) else .error .overflow

end FlatPlan

namespace BlockPlan

def cells : List Nat → List (List Nat)
  | [] => [[]]
  | c :: cs => (cells cs).flatMap fun o => (List.range c).map (· :: o)

/-- Offsets and counts of the chunks of a part; one step along the first axis is `inner` cells. -/
def cuts (max inner : Nat) : List Nat → List (List Nat × List Nat)
  | [] => [([], [])]
  | c :: cs =>
    if cs ≠ [] ∧ inner * c ≤ max then
      (cuts max (inner * c) cs).map fun (o, n) => (0 :: o, c :: n)
    else
      (cells cs).flatMap fun o =>
        (FlatPlan.make 0 c (max / inner)).chunks.map fun f =>
          (f.offset :: o, f.count :: o.map fun _ => 1)

def expectNoWrap : List Nat → List Nat → Checked Unit
  | p :: ps, c :: cs =>
    if p + c < wordBound then expectNoWrap ps cs else .error (.outOfBounds (.wrap p c))
  | _, _ => .ok ()

/-- The chunks of a part of a block, in column-major order; a part without cells has none. -/
def make (pos count : List Nat) (max : Nat) : Checked (List (Chunk (List Nat))) :=
  if pos.length ≠ count.length then .error (.dimensionMismatch count pos)
  else do
    let total ← Region.cellCount count
    if total = 0 then return []
    expectNoWrap pos count
    return (cuts (Nat.max max 1) 1 count).map fun (o, n) => ⟨o, List.zipWith (· + ·) pos o, n⟩

end BlockPlan

end TypedWire
