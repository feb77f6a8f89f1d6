import TypedWire.Children

namespace TypedWire

/-- The product of the axes; every product met from the left must be a 64-bit count. -/
def countFrom (acc : Nat) : List Nat → Option Nat
  | [] => some acc
  | d :: ds => if acc * d < wordBound then countFrom (acc * d) ds else none

def count? (axes : List Nat) : Option Nat := countFrom 1 axes

def axes (dims : List UInt32) : List Nat := dims.map UInt32.toNat

def dimsCount (dims : List UInt32) : Checked Nat :=
  match count? (axes dims) with
  | some n => .ok n
  | none => .error (.unsupportedShape (.dims (axes dims)))

def expectCount (dims : List UInt32) (n : Nat) : Checked Unit := do
  let expected ← dimsCount dims
  if expected = n then .ok () else .error (.lengthMismatch expected n)

def expectDims (expected : Option (List UInt32)) (found : List UInt32) : Checked Unit :=
  match expected with
  | some dims =>
    if dims = found then .ok () else .error (.dimensionMismatch (axes dims) (axes found))
  | none => .ok ()

structure Block (α : Type _) where
  dims : List UInt32
  items : List α
  deriving DecidableEq

namespace Block

variable {α : Type _}

def WellFormed (b : Block α) : Prop := dimsCount b.dims = .ok b.items.length

def make (dims : List UInt32) (items : List α) : Checked (Block α) := do
  expectCount dims items.length
  return ⟨dims, items⟩

def axes (b : Block α) : List Nat := TypedWire.axes b.dims

theorem make_eq_ok_iff {dims : List UInt32} {items : List α} {b : Block α} :
    make dims items = .ok b ↔ b = ⟨dims, items⟩ ∧ b.WellFormed := by
  simp only [make, expectCount, WellFormed]
  cases h : dimsCount dims with
  | error e =>
    refine ⟨nofun, ?_⟩
    rintro ⟨rfl, hb⟩
    rw [h] at hb
    cases hb
  | ok n =>
    by_cases hn : n = items.length
    · simp only [hn, bind, Except.bind, if_true, pure, Except.pure, Except.ok.injEq]
      constructor
      · rintro rfl
        exact ⟨rfl, hn ▸ h⟩
      · exact fun hb => hb.1.symm
    · simp only [hn, bind, Except.bind, if_false]
      refine ⟨nofun, ?_⟩
      rintro ⟨rfl, hb⟩
      exact absurd (Except.ok.inj (h.symm.trans hb)) hn

end Block

def dimsName : String := "dims"

def arrayName : String := "array"

def dimsArray (dims : List UInt32) : Numbers := ⟨.uint32, dims.map Item.ofUInt32⟩

def wrapBlock (kind : ListKind) (typeName : Option String) (dims : List UInt32) (array : Element) :
    Checked (Container Element) :=
  Container.make kind typeName
    [.ofArray (.name dimsName) (dimsArray dims), array.withKey (.name arrayName)]

/-- The axes of a block and the child that holds its items; `view` shows a child as an element. -/
def unwrapBlock {α : Type _} (view : α → Element) (items : List α) :
    Checked (List UInt32 × α) := do
  let children ← NamedChildren.ofList (items.map fun x => ((view x).key, x))
  let (dims, children) ← children.take dimsName
  let dims ← Numbers.itemsOf .uint32 (← (view dims).arrayOf .uint32)
  let (array, children) ← children.take arrayName
  children.expectNone
  return (dims.map Item.toUInt32, array)

end TypedWire
