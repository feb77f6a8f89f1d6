import TypedWire.Link

/-!
Proxies: reads and writes of a region behind a link.

A request is checked against the region and the buffer before anything moves, then carried out
chunk by chunk in the order of its plan. The first chunk that fails ends it; chunks before it stay
moved. A token is looked at before each chunk; a proxy whose `stop` is never true blocks until the
end.
-/

namespace TypedWire

def cellsOf (counts : List Nat) : Nat := counts.foldr (· * ·) 1

/-- Moves chunk after chunk until `stop`, with `done` items moved so far. -/
def transfer {τ χ : Type} (stop : τ → Bool) (size : χ → Nat) (move : χ → Action τ Unit) :
    Nat → List χ → Action τ Unit
  | _, [] => pure ()
  | done, c :: cs => do
    if stop (← get) then throw (.cancelled done)
    move c
    transfer stop size move (done + size c) cs

def onlyAxis : List Nat → Checked Nat
  | [n] => .ok n
  | dims => .error (.dimensionMismatch [1] [dims.length])

structure Proxy (σ α : Type) where
  link : Link σ
  codec : ItemCodec α
  limit : Nat

namespace Proxy

variable {σ α : Type}

def length (p : Proxy σ α) : Action σ Nat := do .ofChecked (onlyAxis (← p.link.dimensions))

def dimensions (p : Proxy σ α) : Action σ (List Nat) := p.link.dimensions

def requireDims (p : Proxy σ α) (expected : List Nat) : Action σ Unit := do
  let dims ← p.link.dimensions
  if dims ≠ expected then throw (.dimensionMismatch expected dims)

def expectRoom (dims : List Nat) (pos length start n : Nat) : Checked Unit := do
  Region.expectSpan "buffer" length start n
  Region.expectSpan "region" (← onlyAxis dims) pos n

def placeFlat (buffer : List α) (start : Nat) (values : List α) (expected : Nat) :
    Checked (List α) :=
  if values.length ≠ expected then .error (.lengthMismatch expected values.length)
  else .ok (Region.splice buffer start values)

def readFlat (p : Proxy σ α) (stop : σ → Bool) (pos start n : Nat) :
    Action (σ × List α) Unit := do
  let dims ← Action.beside p.link.dimensions
  .ofChecked (expectRoom dims pos (← get).2.length start n)
  let max ← .ofChecked (itemsPerMessage p.limit p.codec.size)
  transfer (fun s => stop s.1) Chunk.count (fun c => do
    let e ← Action.beside (p.link.read (.flat c.pos c.count))
    let values ← .ofChecked (p.codec.unpackFlat e)
    let (s, buffer) ← get
    set (s, ← .ofChecked (placeFlat buffer (start + c.offset) values c.count)))
    0 (FlatPlan.make pos n max).chunks

def writeFlat (p : Proxy σ α) (stop : σ → Bool) (pos : Nat) (buffer : List α) (start n : Nat) :
    Action σ Unit := do
  let dims ← p.link.dimensions
  .ofChecked (expectRoom dims pos buffer.length start n)
  let max ← .ofChecked (itemsPerMessage p.limit p.codec.size)
  transfer stop Chunk.count (fun c => do
    let e ← .ofChecked (p.codec.packFlat (Region.slice buffer (start + c.offset) c.count))
    p.link.write (.flat c.pos c.count) e)
    0 (FlatPlan.make pos n max).chunks

def planBlock (dims : List Nat) (buffer : Block α) (pos start counts : List Nat) (max : Nat) :
    Checked (List (Chunk (List Nat))) := do
  Region.expectPart "buffer" buffer.axes start counts
  Region.expectPart "region" dims pos counts
  BlockPlan.make pos counts max

def chunkStart (start : List Nat) (c : Chunk (List Nat)) : List Nat :=
  List.zipWith (· + ·) start c.offset

def placeBlock (buffer : Block α) (start : List Nat) (c : Chunk (List Nat)) (data : Block α) :
    Checked (Block α) :=
  if data.axes ≠ c.count then .error (.dimensionMismatch c.count data.axes)
  else do
    return { buffer with
      items := ← Region.copy data.items data.axes (data.axes.map fun _ => 0) buffer.items
        buffer.axes (chunkStart start c) c.count }

def readBlock (p : Proxy σ α) (stop : σ → Bool) (pos start counts : List Nat) :
    Action (σ × Block α) Unit := do
  let max ← .ofChecked (itemsPerMessage p.limit p.codec.size)
  let dims ← Action.beside p.link.dimensions
  let plan ← .ofChecked (planBlock dims (← get).2 pos start counts max)
  transfer (fun s => stop s.1) (fun c => cellsOf c.count) (fun c => do
    let e ← Action.beside (p.link.read ⟨c.pos, c.count⟩)
    let data ← .ofChecked (p.codec.unpackBlock e)
    let (s, buffer) ← get
    set (s, ← .ofChecked (placeBlock buffer start c data)))
    0 plan

def writeBlock (p : Proxy σ α) (stop : σ → Bool) (pos : List Nat) (buffer : Block α)
    (start counts : List Nat) : Action σ Unit := do
  let max ← .ofChecked (itemsPerMessage p.limit p.codec.size)
  let dims ← p.link.dimensions
  let plan ← .ofChecked (planBlock dims buffer pos start counts max)
  transfer stop (fun c => cellsOf c.count) (fun c => do
    let data ← .ofChecked (Region.readBlock buffer (chunkStart start c) c.count)
    let e ← .ofChecked (p.codec.packBlock data)
    p.link.write ⟨c.pos, c.count⟩ e)
    0 plan

end Proxy

end TypedWire
