import TypedWire.Decode
import TypedWire.Plan

namespace TypedWire

structure ItemCodec (α : Type _) where
  size : Nat
  packFlat : List α → Checked Element
  unpackFlat : Element → Checked (List α)
  packBlock : Block α → Checked Element
  unpackBlock : Element → Checked (Block α)

def chunkId : Key := .name "value"

namespace ItemCodec

def numeric (Γ : Scope) (k : NumericKind) : ItemCodec (Item k) where
  size := k.width
  packFlat xs := Γ.pack chunkId (.array ⟨k, xs⟩) (.array k .free)
  unpackFlat e := do
    match ← Γ.unpack e (.array k .free) with
    | .array a => a.itemsOf k
    | v => .error (.typeMismatch k.name v.summary)
  packBlock b := do
    Γ.pack chunkId (.block k (← Block.make b.dims b.items)) (.block k none)
  unpackBlock e := do
    match ← Γ.unpack e (.block k none) with
    | .block k' b => Block.make b.dims (← Numbers.itemsOf k ⟨k', b.items⟩)
    | v => typeError (.block k none) v

def ofPods (Γ : Scope) (t : String) (size : Nat) : ItemCodec (Record Value) where
  size := size
  packFlat rs := Γ.pack chunkId (.podArray t rs) (.pod t (.array .free))
  unpackFlat e := do
    match ← Γ.unpack e (.pod t (.array .free)) with
    | .podArray _ rs => return rs
    | v => typeError (.pod t (.array .free)) v
  packBlock b := do
    Γ.pack chunkId (.podBlock t (← Block.make b.dims b.items)) (.pod t (.block none))
  unpackBlock e := do
    match ← Γ.unpack e (.pod t (.block none)) with
    | .podBlock _ b => Block.make b.dims b.items
    | v => typeError (.pod t (.block none)) v

def pod (Γ : Scope) (t : String) : Checked (ItemCodec (Record Value)) := do
  return .ofPods Γ t (← Γ.pod t).size

def ofNamed (Γ : Scope) (t : String) (size : Nat) : ItemCodec NamedRecord where
  size := size
  packFlat rs := Γ.pack chunkId (.namedArray t rs) (.named t (.array .free))
  unpackFlat e := do
    match ← Γ.unpack e (.named t (.array .free)) with
    | .namedArray _ rs => return rs
    | v => typeError (.named t (.array .free)) v
  packBlock b := do
    Γ.pack chunkId (.namedBlock t (← Block.make b.dims b.items)) (.named t (.block none))
  unpackBlock e := do
    match ← Γ.unpack e (.named t (.block none)) with
    | .namedBlock _ b => Block.make b.dims b.items
    | v => typeError (.named t (.block none)) v

def named (Γ : Scope) (t : String) : Checked (ItemCodec NamedRecord) := do
  return .ofNamed Γ t (← (← Γ.named t).size)

end ItemCodec

end TypedWire
