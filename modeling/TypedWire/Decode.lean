import TypedWire.Digits
import TypedWire.Encode
import TypedWire.HostType

/-!
Unpacking: elements to values under a type.

An element first becomes a `Reader`: the same tree with, at every node, what the node holds under
any type. A container then reads its children in whatever order its declaration asks for.
-/

namespace TypedWire

/-- An element, its children, and the value it holds under a type. -/
inductive Reader
  | mk (element : Element) (children : List Reader) (read : Ty → Checked Value)

namespace Reader

def element : Reader → Element
  | mk e _ _ => e

def children : Reader → List Reader
  | mk _ cs _ => cs

def read : Reader → Ty → Checked Value
  | mk _ _ f => f

end Reader

def Element.listWith (k : ListKind) (e : Element) (children : List Reader) :
    Checked (Container Reader) := do
  let l ← e.listOf k
  return ⟨l.kind, l.typeName, children⟩

def Reader.listOf (k : ListKind) (r : Reader) : Checked (Container Reader) :=
  r.element.listWith k r.children

def decodeFields : List Field → NamedChildren Reader →
    Checked (List (String × Value) × NamedChildren Reader)
  | [], c => .ok ([], c)
  | f :: fs, c => do
    let (r, c) ← c.take f.name
    let v ← r.read f.ty
    let (vs, c) ← decodeFields fs c
    return ((f.name, v) :: vs, c)

def decodeRecord (what typeName : String) (table : List Field) (l : Container Reader) :
    Checked (Record Value) := do
  l.expectKind .struct what
  l.expectType typeName
  let c ← NamedChildren.ofList (l.items.map fun r => (r.element.key, r))
  let (fields, c) ← decodeFields table c
  c.expectNone
  return ⟨typeName, Entries.ofList fields⟩

def only {α : Type _} : List α → Checked α
  | [x] => .ok x
  | xs => .error (.lengthMismatch 1 xs.length)

def StructType.decode (d : StructType) (l : Container Reader) : Checked (Record Value) :=
  decodeRecord "structure" d.typeName d.fields l

namespace PodType

def decodeOne (d : PodType) (l : Container Reader) : Checked (Record Value) :=
  decodeRecord "pod record" d.typeName d.fields l

def decodeArray (d : PodType) (l : Container Reader) : Checked (List (Record Value)) := do
  l.expectKind .podArray "pod_array"
  l.expectType d.typeName
  expectPositions (l.items.map (·.element.key))
  l.items.mapM fun r => do d.decodeOne (← r.listOf .struct)

def decodeBlock (d : PodType) (l : Container Reader) : Checked (Block (Record Value)) := do
  l.expectKind .podBlock "pod_multidimarray"
  l.expectType d.typeName
  let (dims, array) ← unwrapBlock Reader.element l.items
  Block.make dims (← d.decodeArray (← array.listOf .podArray))

end PodType

namespace NamedType

def decodeArray (d : NamedType) (l : Container Element) : Checked (List NamedRecord) := do
  l.expectKind .namedArray "namedarray_array"
  l.expectType d.typeName
  let c ← NamedChildren.ofList (l.items.map fun e => (e.key, e))
  let (array, c) ← c.take arrayName
  let flat ← array.arrayOf d.kind
  c.expectNone
  return (← flat.split d.count).map (⟨d.typeName, ·⟩)

def decodeBlock (d : NamedType) (l : Container Element) : Checked (Block NamedRecord) := do
  l.expectKind .namedBlock "namedarray_multidimarray"
  l.expectType d.typeName
  let (dims, array) ← unwrapBlock (fun e => e) l.items
  Block.make dims (← d.decodeArray (← array.listOf .namedArray))

end NamedType

def Key.toInt32 : Key → Checked Int32
  | .index i => .ok i
  | .name s =>
    match int32OfText? s with
    | some i => .ok i
    | none => .error (.typeMismatch "int32 key" s)

def Key.toName : Key → Checked String
  | .name s => .ok s
  | i => .error (.typeMismatch "string key" i.text)

/-- Entries of a map added to those before them; a key may come once. -/
def decodeEntries {κ : Type} [DecidableEq κ] [LT κ] [DecidableLT κ] (key : Key → Checked κ)
    (text : κ → String) (value : Ty) (seen : List (κ × Value)) :
    List Reader → Checked (List (κ × Value))
  | [] => .ok seen
  | r :: rs => do
    let k ← key r.element.key
    if (Entries.get? k seen).isSome then .error (.duplicateKey (text k))
    else decodeEntries key text value (Entries.put k (← r.read value) seen) rs

def Element.ty (e : Element) : Checked Ty :=
  match e with
  | .void _ => .ok .any
  | .flat _ (.numeric k) _ => .ok (.array k .free)
  | .flat _ .text _ => .ok .text
  | .nested _ kind typeName items =>
    let named : Checked String :=
      match typeName with
      | some t => .ok t
      | none => .error (.invalidPayload (.list kind) .unnamed)
    match kind with
    | .struct => return .struct (← named)
    | .block =>
      match items.find? (·.key = .name arrayName) with
      | some array =>
        match array.tag.numericKind? with
        | some k => .ok (.block k none)
        | none => .error (.typeMismatch "numeric array" array.tag.label)
      | none => .error (.missingElement arrayName)
    | .vector => .ok (.map (.scalar .int32) .any)
    | .dictionary => .ok (.map .text .any)
    | .list => .ok (.list .any)
    | .podArray => return .pod (← named) (.array .free)
    | .podBlock => return .pod (← named) (.block none)
    | .namedArray => return .named (← named) (.array .free)
    | .namedBlock => return .named (← named) (.block none)

def Ty.orTag (d : Ty) (e : Element) : Checked Ty :=
  match d with
  | .any => e.ty
  | d => .ok d

namespace Scope

def decodePods (Γ : Scope) (t : String) (shape : Shape) (e : Element) (cs : List Reader) :
    Checked Value := do
  let d ← Γ.pod t
  match shape with
  | .single => return .pod (← only (← d.decodeArray (← e.listWith .podArray cs)))
  | .array len =>
    let rs ← d.decodeArray (← e.listWith .podArray cs)
    len.check rs.length
    return .podArray t rs
  | .block dims =>
    let b ← d.decodeBlock (← e.listWith .podBlock cs)
    expectDims dims b.dims
    return .podBlock d.typeName b

def decodeNamed (Γ : Scope) (t : String) (shape : Shape) (e : Element) : Checked Value := do
  let d ← Γ.named t
  match shape with
  | .single => return .named (← only (← d.decodeArray (← e.listOf .namedArray)))
  | .array len =>
    let rs ← d.decodeArray (← e.listOf .namedArray)
    len.check rs.length
    return .namedArray t rs
  | .block dims =>
    let b ← d.decodeBlock (← e.listOf .namedBlock)
    expectDims dims b.dims
    return .namedBlock d.typeName b

def decodeAs (Γ : Scope) (e : Element) (cs : List Reader) : Ty → Checked Value
  | .any => .ok .null
  | .scalar k => return .scalar (← Scalar.ofArray (← e.arrayOf k))
  | .array k len => do
    let a ← e.arrayOf k
    len.check a.length
    return .array a
  | .block k expected => do
    let (dims, array) ← unwrapBlock (fun e => e) (← e.listOf .block).items
    expectDims expected dims
    let items ← Numbers.itemsOf k (← array.arrayOf k)
    return .block k (← Block.make dims items)
  | .text => return .text (← e.text)
  | .enum t => do
    let s ← Scalar.ofArray (← e.arrayOf .int32)
    return .enum t (Item.toInt32 (← s.itemOf .int32))
  | .map key value => do
    match ← key.keyKind with
    | .int32 =>
      let l ← e.listWith .vector cs
      return .vector (← decodeEntries Key.toInt32 (fun k => toString k.toInt) value [] l.items)
    | .text =>
      let l ← e.listWith .dictionary cs
      return .dictionary (← decodeEntries Key.toName (fun k => k) value [] l.items)
  | .list item => do
    let l ← e.listWith .list cs
    expectPositions (l.items.map (·.element.key))
    return .list (← l.items.mapM (·.read item))
  | .struct t => do
    let l ← e.listWith .struct cs
    l.expectType t
    return .struct (← (← Γ.struct t).decode l)
  | .pod t shape => Γ.decodePods t shape e cs
  | .named t shape => Γ.decodeNamed t shape e

def decodeWith (Γ : Scope) (e : Element) (cs : List Reader) (d : Ty) : Checked Value :=
  if e.tag = .void then
    if d.Nullable then .ok .null else .error (.nullNotAllowed d.render)
  else do Γ.decodeAs e cs (← d.orTag e)

mutual

def reader (Γ : Scope) : Element → Reader
  | .nested i kind typeName items =>
    let cs := readers Γ items
    .mk (.nested i kind typeName items) cs (Γ.decodeWith (.nested i kind typeName items) cs)
  | e => .mk e [] (Γ.decodeWith e [])

def readers (Γ : Scope) : List Element → List Reader
  | [] => []
  | e :: es => reader Γ e :: readers Γ es

end

def unpack (Γ : Scope) (e : Element) (d : Ty) : Checked Value := (Γ.reader e).read d

def unpackAny (Γ : Scope) (e : Element) : Checked Value := Γ.unpack e .any

def unpackAs (Γ : Scope) (e : Element) (d : Ty) (t : HostType) : Checked t.El := do
  t.ofValue (← Γ.unpack e d)

def readerList (Γ : Scope) (l : Container Element) : Container Reader := l.map Γ.reader

end Scope

def Element.item (k : NumericKind) (e : Element) : Checked (Item k) := do
  if e.tag = .void then .error (.nullNotAllowed k.name)
  else (← Scalar.ofArray (← e.arrayOf k)).itemOf k

end TypedWire
