import TypedWire.Ty
import TypedWire.Entries

namespace TypedWire

structure Record (α : Type _) where
  typeName : String
  fields : List (String × α)

structure NamedRecord where
  typeName : String
  array : Numbers
  deriving DecidableEq

inductive Value
  | null
  | scalar (s : Scalar)
  | array (a : Numbers)
  | block (kind : NumericKind) (b : Block (Item kind))
  | text (s : String)
  | enum (typeName : String) (value : Int32)
  | vector (entries : List (Int32 × Value))
  | dictionary (entries : List (String × Value))
  | list (items : List Value)
  | struct (r : Record Value)
  | pod (r : Record Value)
  | podArray (typeName : String) (records : List (Record Value))
  | podBlock (typeName : String) (b : Block (Record Value))
  | named (r : NamedRecord)
  | namedArray (typeName : String) (records : List NamedRecord)
  | namedBlock (typeName : String) (b : Block NamedRecord)

namespace Record

variable {α : Type _}

def empty (typeName : String) : Record α := ⟨typeName, []⟩

def set (r : Record α) (name : String) (x : α) : Record α :=
  { r with fields := Entries.put name x r.fields }

def field? (r : Record α) (name : String) : Option α := Entries.get? name r.fields

end Record

namespace Value

def isNull : Value → Bool
  | .null => true
  | _ => false

def summary : Value → String
  | .null => "null"
  | .scalar s => s.kind.name
  | .array a => s!"{a.kind.name}[{a.length}]"
  | .block k b => k.name ++ axesText b.axes
  | .text _ => "string"
  | .enum t _ => "enum " ++ t
  | .vector _ => "vector"
  | .dictionary _ => "dictionary"
  | .list _ => "list"
  | .struct r => r.typeName
  | .pod r => r.typeName
  | .podArray t rs => s!"{t}[{rs.length}]"
  | .podBlock t b => t ++ axesText b.axes
  | .named r => r.typeName
  | .namedArray t rs => s!"{t}[{rs.length}]"
  | .namedBlock t b => t ++ axesText b.axes

/-- The type of a value's own shape; what a container holds is left open. -/
def ty : Value → Ty
  | .null => .any
  | .scalar s => .scalar s.kind
  | .array a => .array a.kind .free
  | .block k _ => .block k none
  | .text _ => .text
  | .enum t _ => .enum t
  | .vector _ => .map (.scalar .int32) .any
  | .dictionary _ => .map .text .any
  | .list _ => .list .any
  | .struct r => .struct r.typeName
  | .pod r => .pod r.typeName .single
  | .podArray t _ => .pod t (.array .free)
  | .podBlock t _ => .pod t (.block none)
  | .named r => .named r.typeName .single
  | .namedArray t _ => .named t (.array .free)
  | .namedBlock t _ => .named t (.block none)

end Value

def Ty.orOwn (d : Ty) (v : Value) : Ty :=
  match d with
  | .any => v.ty
  | d => d

namespace Value

def scalar? : Value → Option Scalar
  | .scalar s => some s
  | _ => none

def array? : Value → Option Numbers
  | .array a => some a
  | _ => none

def text? : Value → Option String
  | .text s => some s
  | _ => none

mutual

def WellFormed : Value → Prop
  | .block _ b => b.WellFormed
  | .vector es => Entries.Sorted es ∧ VectorWellFormed es
  | .dictionary es => Entries.Sorted es ∧ FieldsWellFormed es
  | .list vs => ListWellFormed vs
  | .struct r => RecordWellFormed r
  | .pod r => RecordWellFormed r
  | .podArray _ rs => RecordsWellFormed rs
  | .podBlock _ ⟨dims, rs⟩ => dimsCount dims = .ok rs.length ∧ RecordsWellFormed rs
  | .namedBlock _ b => b.WellFormed
  | _ => True

def VectorWellFormed : List (Int32 × Value) → Prop
  | [] => True
  | (_, v) :: es => v.WellFormed ∧ VectorWellFormed es

def FieldsWellFormed : List (String × Value) → Prop
  | [] => True
  | (_, v) :: es => v.WellFormed ∧ FieldsWellFormed es

def ListWellFormed : List Value → Prop
  | [] => True
  | v :: vs => v.WellFormed ∧ ListWellFormed vs

def RecordWellFormed : Record Value → Prop
  | ⟨_, fields⟩ => Entries.Sorted fields ∧ FieldsWellFormed fields

def RecordsWellFormed : List (Record Value) → Prop
  | [] => True
  | r :: rs => RecordWellFormed r ∧ RecordsWellFormed rs

end

def namedEq (a b : NamedRecord) : Bool := a.typeName == b.typeName && a.array.numEq b.array

def allNamedEq (as bs : List NamedRecord) : Bool :=
  as.length == bs.length && (as.zip bs).all fun (a, b) => namedEq a b

mutual

def numEq : Value → Value → Bool
  | .null, .null => true
  | .scalar a, .scalar b => a.numEq b
  | .array a, .array b => a.numEq b
  | .block k a, .block l b => a.dims == b.dims && Numbers.numEq ⟨k, a.items⟩ ⟨l, b.items⟩
  | .text a, .text b => a == b
  | .enum t a, .enum u b => t == u && a == b
  | .vector as, .vector bs => vectorEq as bs
  | .dictionary as, .dictionary bs => fieldsEq as bs
  | .list as, .list bs => listEq as bs
  | .struct a, .struct b => recordEq a b
  | .pod a, .pod b => recordEq a b
  | .podArray t as, .podArray u bs => t == u && recordsEq as bs
  | .podBlock t ⟨dims, as⟩, .podBlock u ⟨dims', bs⟩ => t == u && dims == dims' && recordsEq as bs
  | .named a, .named b => namedEq a b
  | .namedArray t as, .namedArray u bs => t == u && allNamedEq as bs
  | .namedBlock t a, .namedBlock u b => t == u && a.dims == b.dims && allNamedEq a.items b.items
  | _, _ => false

def vectorEq : List (Int32 × Value) → List (Int32 × Value) → Bool
  | [], [] => true
  | (k, v) :: as, (l, w) :: bs => k == l && v.numEq w && vectorEq as bs
  | _, _ => false

def fieldsEq : List (String × Value) → List (String × Value) → Bool
  | [], [] => true
  | (k, v) :: as, (l, w) :: bs => k == l && v.numEq w && fieldsEq as bs
  | _, _ => false

def listEq : List Value → List Value → Bool
  | [], [] => true
  | v :: as, w :: bs => v.numEq w && listEq as bs
  | _, _ => false

def recordEq : Record Value → Record Value → Bool
  | ⟨t, as⟩, ⟨u, bs⟩ => t == u && fieldsEq as bs

def recordsEq : List (Record Value) → List (Record Value) → Bool
  | [], [] => true
  | a :: as, b :: bs => recordEq a b && recordsEq as bs
  | _, _ => false

end

end Value

end TypedWire
