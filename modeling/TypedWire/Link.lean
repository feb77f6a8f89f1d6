import TypedWire.Action
import TypedWire.ItemCodec

namespace TypedWire

structure Request where
  pos : List Nat
  count : List Nat
  deriving DecidableEq

namespace Request

def flat (pos count : Nat) : Request := ⟨[pos], [count]⟩

def rank (r : Request) : Nat := r.count.length

def cellCount (r : Request) : Checked Nat := Region.cellCount r.count

def span (r : Request) : Checked (Nat × Nat) :=
  match r with
  | ⟨[p], [n]⟩ => .ok (p, n)
  | r => .error (.dimensionMismatch [1] [r.rank])

end Request

structure Link (σ : Type) where
  dimensions : Action σ (List Nat)
  read : Request → Action σ Element
  write : Request → Element → Action σ Unit

namespace Link

variable {α σ : Type}

def serveFlat (codec : ItemCodec α) : Link (List α) where
  dimensions := return [(← get).length]
  read r := do
    let region ← get
    .ofChecked do
      let (pos, n) ← r.span
      codec.packFlat (← Region.readFlat region pos n)
  write r e := do
    let region ← get
    set (← .ofChecked do
      let (pos, n) ← r.span
      let values ← codec.unpackFlat e
      if values.length ≠ n then .error (.lengthMismatch n values.length)
      else Region.writeFlat region pos values)

def serveBlock (codec : ItemCodec α) : Link (Block α) where
  dimensions := return (← get).axes
  read r := do
    let region ← get
    .ofChecked do codec.packBlock (← Region.readBlock region r.pos r.count)
  write r e := do
    let region ← get
    set (← .ofChecked do
      let values ← codec.unpackBlock e
      if values.axes ≠ r.count then .error (.dimensionMismatch r.count values.axes)
      else Region.writeBlock region r.pos values)

end Link

inductive Access
  | read
  | write
  deriving DecidableEq

structure Faults where
  failAt : Option Nat
  tamper : Option (Nat × Element)
  cancelAfter : Option Nat
  dims : Option (List Nat)
  linkDown : Bool

def Faults.none : Faults := ⟨.none, .none, .none, .none, false⟩

structure Tap (σ : Type) where
  inner : σ
  log : List (Access × Request)
  faults : Faults
  issued : Nat
  served : Nat

namespace Tap

variable {σ α : Type}

def make (s : σ) : Tap σ := ⟨s, [], .none, 0, 0⟩

def setFaults (t : Tap σ) (f : Faults) : Tap σ := ⟨t.inner, [], f, 0, 0⟩

def cancelled (t : Tap σ) : Bool :=
  match t.faults.cancelAfter with
  | some n => n ≤ t.served
  | none => false

def onInner (a : Action σ α) : Action (Tap σ) α := fun t =>
  match a t.inner with
  | .ok x s => .ok x { t with inner := s }
  | .error e s => .error e { t with inner := s }

/-- Logs the request, then answers it with `act` unless it is the one that must fail. -/
def request (a : Access) (r : Request) (act : Nat → Action (Tap σ) α) : Action (Tap σ) α := do
  let t ← get
  set { t with log := t.log ++ [(a, r)], issued := t.issued + 1 }
  if t.faults.failAt = some t.issued then throw (.transport "link down")
  let x ← act t.issued
  modify fun t => { t with served := t.served + 1 }
  return x

def link (l : Link σ) : Link (Tap σ) where
  dimensions := do
    let t ← get
    if t.faults.linkDown then throw (.transport "no dimensions")
    match t.faults.dims with
    | some dims => return dims
    | none => onInner l.dimensions
  read r := request .read r fun n => do
    match (← get).faults.tamper with
    | some (n', e) => if n = n' then return e else onInner (l.read r)
    | none => onInner (l.read r)
  write r e := request .write r fun _ => onInner (l.write r e)

end Tap

end TypedWire
