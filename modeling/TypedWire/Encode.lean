import TypedWire.Service

/-!
Packing: values to elements under a type.

Each part of a value first becomes an `Encoder`, which waits for the key and the type that its
container gives it, so a record can be packed in the order of its declaration.
-/

namespace TypedWire

abbrev Encoder := Key → Ty → Checked Element

def typeError {α : Type _} (d : Ty) (v : Value) : Checked α :=
  .error (.typeMismatch d.render v.summary)

/-- Why `v` is no value of `d`; a map's key is looked at first. -/
def refuse {α : Type _} (d : Ty) (v : Value) : Checked α :=
  match d with
  | .map key _ => do
    let _ ← key.keyKind
    typeError d v
  | _ => typeError d v

def expectName (expected found : String) : Checked Unit :=
  if expected = found then .ok () else .error (.typeMismatch expected found)

def expectKind (expected found : NumericKind) : Checked Unit :=
  if expected = found then .ok () else .error (.typeMismatch expected.name found.name)

/-- Fields in declared order; a field that is not declared fails first. -/
def encodeFields (table : List Field) (fields : List (String × Encoder)) : Checked (List Element) :=
  match least? ((fields.map (·.1)).filter fun s => !table.any (·.name = s)) with
  | some s => .error (.unexpectedElement s)
  | none => table.mapM fun f =>
    match Entries.get? f.name fields with
    | some enc => enc (.name f.name) f.ty
    | none => .error (.missingElement f.name)

def encodeRecord (typeName : String) (table : List Field) (r : Record Encoder) :
    Checked (Container Element) := do
  expectName typeName r.typeName
  Container.make .struct (some typeName) (← encodeFields table r.fields)

def StructType.encode (d : StructType) (r : Record Encoder) : Checked (Container Element) :=
  encodeRecord d.typeName d.fields r

namespace PodType

def encodeOne (d : PodType) (r : Record Encoder) : Checked (Container Element) :=
  encodeRecord d.typeName d.fields r

def encodeArray (d : PodType) (rs : List (Record Encoder)) : Checked (Container Element) := do
  let items ← packEach (fun i r => return .ofList (.index i) (← d.encodeOne r)) rs
  Container.make .podArray (some d.typeName) items

def encodeBlock (d : PodType) (b : Block (Record Encoder)) : Checked (Container Element) := do
  let array ← d.encodeArray b.items
  wrapBlock .podBlock (some d.typeName) b.dims (.ofList (.name arrayName) array)

end PodType

namespace NamedType

def encodeArray (d : NamedType) (rs : List NamedRecord) : Checked (Container Element) := do
  rs.forM d.expectRecord
  let flat ← Numbers.concat d.kind (rs.map (·.array))
  Container.make .namedArray (some d.typeName) [.ofArray (.name arrayName) flat]

def encodeBlock (d : NamedType) (b : Block NamedRecord) : Checked (Container Element) := do
  let array ← d.encodeArray b.items
  wrapBlock .namedBlock (some d.typeName) b.dims (.ofList (.name arrayName) array)

end NamedType

namespace Scope

def encodePods (Γ : Scope) (d : Ty) (v : Value) (rs : Block (Record Encoder)) :
    Checked (Container Element) :=
  match d, v with
  | .pod t .single, .pod _ => do (← Γ.pod t).encodeArray rs.items
  | .pod t (.array len), .podArray t' _ => do
    expectName t t'
    len.check rs.items.length
    (← Γ.pod t).encodeArray rs.items
  | .pod t (.block dims), .podBlock t' _ => do
    expectName t t'
    expectDims dims rs.dims
    (← Γ.pod t).encodeBlock rs
  | d, v => refuse d v

def encodeNamed (Γ : Scope) (d : Ty) (v : Value) : Checked (Container Element) :=
  match d, v with
  | .named t .single, .named r => do (← Γ.named t).encodeArray [r]
  | .named t (.array len), .namedArray t' rs => do
    expectName t t'
    len.check rs.length
    (← Γ.named t).encodeArray rs
  | .named t (.block dims), .namedBlock t' b => do
    expectName t t'
    expectDims dims b.dims
    (← Γ.named t).encodeBlock b
  | d, v => refuse d v

mutual

def encode (Γ : Scope) : Value → Encoder
  | .null => fun i d => if d.Nullable then .ok (.void i) else .error (.nullNotAllowed d.render)
  | .scalar s => fun i d =>
    match d.orOwn (.scalar s) with
    | .scalar k => do
      expectKind k s.kind
      return .ofArray i s.toArray
    | d => refuse d (.scalar s)
  | .array a => fun i d =>
    match d.orOwn (.array a) with
    | .array k len => do
      expectKind k a.kind
      len.check a.length
      return .ofArray i a
    | d => refuse d (.array a)
  | .block k b => fun i d =>
    match d.orOwn (.block k b) with
    | .block k' dims => do
      expectKind k' k
      expectDims dims b.dims
      return .ofList i
        (← wrapBlock .block none b.dims (.ofArray (.name arrayName) ⟨k, b.items⟩))
    | d => refuse d (.block k b)
  | .text s => fun i d =>
    match d.orOwn (.text s) with
    | .text => .ok (.ofText i s)
    | d => refuse d (.text s)
  | .enum t n => fun i d =>
    match d.orOwn (.enum t n) with
    | .enum t' => do
      expectName t' t
      return .ofArray i ⟨.int32, [Item.ofInt32 n]⟩
    | d => refuse d (.enum t n)
  | .vector es =>
    let encs := encodeVector Γ es
    fun i d =>
      match d.orOwn (.vector es) with
      | .map key value => do
        match ← key.keyKind with
        | .int32 =>
          let items ← encs.mapM fun (k, enc) => enc (.index k) value
          return .ofList i (← Container.make .vector none items)
        | .text => typeError (.map key value) (.vector es)
      | d => refuse d (.vector es)
  | .dictionary es =>
    let encs := encodeNamedValues Γ es
    fun i d =>
      match d.orOwn (.dictionary es) with
      | .map key value => do
        match ← key.keyKind with
        | .text =>
          let items ← encs.mapM fun (k, enc) => enc (.name k) value
          return .ofList i (← Container.make .dictionary none items)
        | .int32 => typeError (.map key value) (.dictionary es)
      | d => refuse d (.dictionary es)
  | .list vs =>
    let encs := encodeValues Γ vs
    fun i d =>
      match d.orOwn (.list vs) with
      | .list item => do
        let items ← packEach (fun p enc => enc (.index p) item) encs
        return .ofList i (← Container.make .list none items)
      | d => refuse d (.list vs)
  | .struct r =>
    let enc := encodeParts Γ r
    fun i d =>
      match d.orOwn (.struct r) with
      | .struct t => do
        expectName t r.typeName
        return .ofList i (← (← Γ.struct t).encode enc)
      | d => refuse d (.struct r)
  | .pod r =>
    let enc := encodeParts Γ r
    fun i d => return .ofList i (← Γ.encodePods (d.orOwn (.pod r)) (.pod r) ⟨[], [enc]⟩)
  | .podArray t rs =>
    let encs := encodeAllParts Γ rs
    fun i d =>
      return .ofList i (← Γ.encodePods (d.orOwn (.podArray t rs)) (.podArray t rs) ⟨[], encs⟩)
  | .podBlock t ⟨dims, rs⟩ =>
    let encs := encodeAllParts Γ rs
    fun i d =>
      let v := .podBlock t ⟨dims, rs⟩
      return .ofList i (← Γ.encodePods (d.orOwn v) v ⟨dims, encs⟩)
  | .named r => fun i d => return .ofList i (← Γ.encodeNamed (d.orOwn (.named r)) (.named r))
  | .namedArray t rs => fun i d =>
    return .ofList i (← Γ.encodeNamed (d.orOwn (.namedArray t rs)) (.namedArray t rs))
  | .namedBlock t b => fun i d =>
    return .ofList i (← Γ.encodeNamed (d.orOwn (.namedBlock t b)) (.namedBlock t b))

def encodeVector (Γ : Scope) : List (Int32 × Value) → List (Int32 × Encoder)
  | [] => []
  | (k, v) :: es => (k, encode Γ v) :: encodeVector Γ es

def encodeNamedValues (Γ : Scope) : List (String × Value) → List (String × Encoder)
  | [] => []
  | (k, v) :: es => (k, encode Γ v) :: encodeNamedValues Γ es

def encodeValues (Γ : Scope) : List Value → List Encoder
  | [] => []
  | v :: vs => encode Γ v :: encodeValues Γ vs

def encodeParts (Γ : Scope) : Record Value → Record Encoder
  | ⟨t, fields⟩ => ⟨t, encodeNamedValues Γ fields⟩

def encodeAllParts (Γ : Scope) : List (Record Value) → List (Record Encoder)
  | [] => []
  | r :: rs => encodeParts Γ r :: encodeAllParts Γ rs

end

def pack (Γ : Scope) (i : Key) (v : Value) (d : Ty) : Checked Element :=
  Γ.encode v i d

def packAny (Γ : Scope) (i : Key) (v : Value) : Checked Element := Γ.encode v i .any

end Scope

end TypedWire
