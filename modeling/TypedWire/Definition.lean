import TypedWire.Value

namespace TypedWire

def splitAtLastDot : List Char → Option (List Char × List Char)
  | [] => none
  | c :: cs =>
    match splitAtLastDot cs with
    | some (owner, name) => some (c :: owner, name)
    | none => if c = '.' then some ([], cs) else none

/-- The owning namespace and the local name, neither of them empty. -/
def splitName (q : String) : Checked (String × String) :=
  match splitAtLastDot q.toList with
  | some (c :: owner, d :: name) => .ok (String.ofList (c :: owner), String.ofList (d :: name))
  | _ => .error (.serviceTypeNotFound q)

structure Field where
  name : String
  ty : Ty
  deriving DecidableEq

def expectDistinct (seen : List String) : List Field → Checked Unit
  | [] => .ok ()
  | f :: fs =>
    if f.name ∈ seen then .error (.duplicateKey f.name) else expectDistinct (f.name :: seen) fs

structure StructType where
  typeName : String
  fields : List Field
  deriving DecidableEq

def StructType.make (typeName : String) (fields : List Field) : Checked StructType := do
  let _ ← splitName typeName
  expectDistinct [] fields
  return ⟨typeName, fields⟩

structure FieldRange where
  name : String
  offset : Nat
  length : Nat
  deriving DecidableEq

structure NamedType where
  typeName : String
  kind : NumericKind
  fields : List FieldRange
  count : Nat
  deriving DecidableEq

inductive NamedPart
  | items (n : Nat)
  | record (of : NamedType)

namespace NamedPart

def length (k : NumericKind) : NamedPart → Checked Nat
  | .items n => .ok n
  | .record of => if of.kind = k then .ok of.count else .error (.typeMismatch k.name of.kind.name)

end NamedPart

namespace NamedType

/-- Fields laid end to end from `offset`, with the offset behind the last. -/
def layFields (offset : Nat) (laid : List FieldRange) :
    List (String × Nat) → Checked (List FieldRange × Nat)
  | [] => .ok (laid, offset)
  | (name, n) :: rest =>
    if laid.any (·.name = name) then .error (.duplicateKey name)
    else if n = 0 then .error (.unsupportedShape (.emptyField name))
    else do layFields (← word (offset + n)) (laid ++ [⟨name, offset, n⟩]) rest

def make (typeName : String) (k : NumericKind) (parts : List (String × NamedPart)) :
    Checked NamedType := do
  let lengths ← parts.mapM fun (name, p) => return (name, ← p.length k)
  let _ ← splitName typeName
  let (fields, count) ← layFields 0 [] lengths
  if count = 0 then .error (.unsupportedShape (.noFields typeName))
  else return ⟨typeName, k, fields, count⟩

def bytes (d : NamedType) : Nat := d.kind.width * d.count

def size (d : NamedType) : Checked Nat := word d.bytes

def expectRecord (d : NamedType) (r : NamedRecord) : Checked Unit :=
  if r.typeName ≠ d.typeName then .error (.typeMismatch d.typeName r.typeName)
  else if r.array.kind ≠ d.kind then .error (.typeMismatch d.kind.name r.array.kind.name)
  else if r.array.length ≠ d.count then .error (.lengthMismatch d.count r.array.length)
  else .ok ()

def record (d : NamedType) (a : Numbers) : Checked NamedRecord := do
  d.expectRecord ⟨d.typeName, a⟩
  return ⟨d.typeName, a⟩

def get (d : NamedType) (r : NamedRecord) (name : String) : Checked Numbers := do
  d.expectRecord r
  match d.fields.find? (·.name = name) with
  | some f => r.array.slice f.offset f.length
  | none => .error (.missingElement name)

end NamedType

structure PodType where
  typeName : String
  fields : List Field
  size : Nat
  deriving DecidableEq

structure PodMember extends Field where
  unit : Nat
  shape : Shape

namespace PodMember

def scalar (name : String) (k : NumericKind) : PodMember := ⟨⟨name, .scalar k⟩, k.width, .single⟩

def array (name : String) (k : NumericKind) (len : Extent) : PodMember :=
  ⟨⟨name, .array k len⟩, k.width, .array len⟩

def block (name : String) (k : NumericKind) (dims : List UInt32) : PodMember :=
  ⟨⟨name, .block k (some dims)⟩, k.width, .block (some dims)⟩

def pod (name : String) (of : PodType) (shape : Shape) : PodMember :=
  ⟨⟨name, .pod of.typeName shape⟩, of.size, shape⟩

def named (name : String) (of : NamedType) (shape : Shape) : Checked PodMember := do
  return ⟨⟨name, .named of.typeName shape⟩, ← of.size, shape⟩

end PodMember

namespace PodType

def layout (typeName : String) (size : Nat) : List PodMember → Checked Nat
  | [] => .ok size
  | f :: fs =>
    match f.shape.recordCount? with
    | none => .error (.unsupportedShape (.openField f.name typeName))
    | some n =>
      if n * f.unit + size < wordBound then layout typeName (n * f.unit + size) fs
      else .error (.unsupportedShape (.layout typeName))

def make (typeName : String) (fields : List PodMember) : Checked PodType := do
  let _ ← splitName typeName
  let size ← layout typeName 0 fields
  expectDistinct [] (fields.map (·.toField))
  return ⟨typeName, fields.map (·.toField), size⟩

end PodType

end TypedWire
