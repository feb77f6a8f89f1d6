import TypedWire.Block

/-!
Regions: bounds checks and copies between flat lists and blocks.

The item at `(i₀, i₁, …)` of a block with axes `d₀, d₁, …` stands at `i₀ + d₀ * (i₁ + d₁ * …)`, so
a part of a block is a sequence of runs along the first axis.
-/

namespace TypedWire.Region

def cellCount (counts : List Nat) : Checked Nat :=
  match count? counts with
  | some n => .ok n
  | none => .error (.outOfBounds (.count counts))

def expectSpan (what : String) (length pos n : Nat) : Checked Unit :=
  if pos + n ≤ length then .ok () else .error (.outOfBounds (.span what pos n length))

def expectAxes (what : String) (axis : Nat) : List Nat → List Nat → List Nat → Checked Unit
  | d :: ds, p :: ps, c :: cs =>
    if p + c ≤ d then expectAxes what (axis + 1) ds ps cs
    else .error (.outOfBounds (.axis what axis p c d))
  | _, _, _ => .ok ()

def expectPart (what : String) (dims pos counts : List Nat) : Checked Unit :=
  if dims = [] then .error (.unsupportedShape (.rankZero what))
  else if pos.length ≠ dims.length then .error (.dimensionMismatch dims pos)
  else if counts.length ≠ dims.length then .error (.dimensionMismatch dims counts)
  else expectAxes what 0 dims pos counts

def expectVolume (n : Nat) (dims : List Nat) : Checked Unit := do
  let expected ← cellCount dims
  if expected = n then .ok () else .error (.lengthMismatch expected n)

def addresses : (dims pos counts : List Nat) → List Nat
  | d :: ds, p :: ps, c :: cs =>
    (addresses ds ps cs).flatMap fun a => (List.range c).map fun i => p + i + d * a
  | _, _, _ => [0]

def starts : (dims pos counts : List Nat) → List Nat
  | d :: ds, p :: ps, c :: cs => if c = 0 then [] else (addresses ds ps cs).map (p + d * ·)
  | _, _, _ => [0]

def run : List Nat → Nat
  | [] => 1
  | c :: _ => c

variable {α : Type _}

def slice (xs : List α) (start n : Nat) : List α := (xs.drop start).take n

def splice (xs : List α) (start : Nat) (ys : List α) : List α :=
  xs.take start ++ ys ++ xs.drop (start + ys.length)

theorem length_slice {xs : List α} {start n : Nat} (h : start + n ≤ xs.length) :
    (slice xs start n).length = n := by
  simp only [slice, List.length_take, List.length_drop]
  omega

theorem length_splice {xs ys : List α} {start : Nat} (h : start + ys.length ≤ xs.length) :
    (splice xs start ys).length = xs.length := by
  simp only [splice, List.length_append, List.length_take, List.length_drop]
  omega

theorem slice_splice {xs ys : List α} {start : Nat} (h : start + ys.length ≤ xs.length) :
    slice (splice xs start ys) start ys.length = ys := by
  have hl : (xs.take start).length = start := by
    rw [List.length_take]
    omega
  rw [slice, splice, List.append_assoc, List.drop_append_of_le_length (Nat.le_of_eq hl.symm),
    List.drop_of_length_le (Nat.le_of_eq hl), List.nil_append, List.take_left]

def copyRuns (n : Nat) (src dst : List α) : List (Nat × Nat) → List α
  | [] => dst
  | (s, d) :: rest => copyRuns n src (splice dst d (slice src s n)) rest

def copy (src : List α) (srcDims srcPos : List Nat) (dst : List α) (dstDims dstPos : List Nat)
    (counts : List Nat) : Checked (List α) := do
  expectVolume src.length srcDims
  expectVolume dst.length dstDims
  expectPart "source" srcDims srcPos counts
  expectPart "destination" dstDims dstPos counts
  return copyRuns (run counts) src dst
    ((starts srcDims srcPos counts).zip (starts dstDims dstPos counts))

def extract (src : List α) (dims pos counts : List Nat) : Checked (List α) := do
  expectVolume src.length dims
  expectPart "source" dims pos counts
  let _ ← cellCount counts
  return (starts dims pos counts).flatMap fun s => slice src s (run counts)

def toDims (counts : List Nat) : Checked (List UInt32) :=
  counts.mapM fun n =>
    if n < UInt32.size then .ok (UInt32.ofNat n) else .error (.unsupportedShape (.axis n))

def readFlat (region : List α) (pos n : Nat) : Checked (List α) := do
  expectSpan "region" region.length pos n
  return slice region pos n

def writeFlat (region : List α) (pos : Nat) (values : List α) : Checked (List α) := do
  expectSpan "region" region.length pos values.length
  return splice region pos values

def loadFlat (region : List α) (pos : Nat) (buffer : List α) (start n : Nat) :
    Checked (List α) := do
  expectSpan "buffer" buffer.length start n
  return splice buffer start (← readFlat region pos n)

def storeFlat (region : List α) (pos : Nat) (buffer : List α) (start n : Nat) :
    Checked (List α) := do
  expectSpan "buffer" buffer.length start n
  writeFlat region pos (slice buffer start n)

def readBlock (region : Block α) (pos counts : List Nat) : Checked (Block α) := do
  let items ← extract region.items region.axes pos counts
  Block.make (← toDims counts) items

def writeBlock (region : Block α) (pos : List Nat) (values : Block α) : Checked (Block α) := do
  let origin := values.axes.map fun _ => 0
  return { region with
    items := ← copy values.items values.axes origin region.items region.axes pos values.axes }

def loadBlock (region : Block α) (pos : List Nat) (buffer : Block α) (start counts : List Nat) :
    Checked (Block α) := do
  return { buffer with
    items := ← copy region.items region.axes pos buffer.items buffer.axes start counts }

def storeBlock (region : Block α) (pos : List Nat) (buffer : Block α) (start counts : List Nat) :
    Checked (Block α) := do
  return { region with
    items := ← copy buffer.items buffer.axes start region.items region.axes pos counts }

end TypedWire.Region
