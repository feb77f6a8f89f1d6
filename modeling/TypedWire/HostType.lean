import TypedWire.Value

namespace TypedWire

inductive HostType
  | scalarOf (kind : NumericKind)
  | arrayOf (kind : NumericKind)
  | scalar
  | array
  | block
  | text
  | enum
  | vector
  | dictionary
  | list
  | struct
  | pod
  | podArray
  | podBlock
  | named
  | namedArray
  | namedBlock
  | value
  | option (t : HostType)
  deriving DecidableEq

namespace HostType

abbrev El : HostType → Type
  | .scalarOf k => Item k
  | .arrayOf k => List (Item k)
  | .scalar => Scalar
  | .array => Numbers
  | .block => (k : NumericKind) × Block (Item k)
  | .text => String
  | .enum => String × Int32
  | .vector => List (Int32 × Value)
  | .dictionary => List (String × Value)
  | .list => List Value
  | .struct => Record Value
  | .pod => Record Value
  | .podArray => String × List (Record Value)
  | .podBlock => String × Block (Record Value)
  | .named => NamedRecord
  | .namedArray => String × List NamedRecord
  | .namedBlock => String × Block NamedRecord
  | .value => Value
  | .option t => Option t.El

def name : HostType → String
  | .scalarOf k => k.name
  | .arrayOf k => k.name ++ "[]"
  | .scalar => "scalar"
  | .array => "numeric array"
  | .block => "multidim array"
  | .text => "string"
  | .enum => "enum"
  | .vector => "vector"
  | .dictionary => "dictionary"
  | .list => "list"
  | .struct => "structure"
  | .pod => "pod"
  | .podArray => "pod array"
  | .podBlock => "pod multidim array"
  | .named => "namedarray"
  | .namedArray => "namedarray array"
  | .namedBlock => "namedarray multidim array"
  | .value => "value"
  | .option t => t.name

def ofValue : (t : HostType) → Value → Checked t.El
  | .scalarOf k, .scalar s => s.itemOf k
  | .arrayOf k, .array a => a.itemsOf k
  | .scalar, .scalar s => .ok s
  | .array, .array a => .ok a
  | .block, .block k b => .ok ⟨k, b⟩
  | .text, .text s => .ok s
  | .enum, .enum t n => .ok (t, n)
  | .vector, .vector es => .ok es
  | .dictionary, .dictionary es => .ok es
  | .list, .list vs => .ok vs
  | .struct, .struct r => .ok r
  | .pod, .pod r => .ok r
  | .podArray, .podArray t rs => .ok (t, rs)
  | .podBlock, .podBlock t b => .ok (t, b)
  | .named, .named r => .ok r
  | .namedArray, .namedArray t rs => .ok (t, rs)
  | .namedBlock, .namedBlock t b => .ok (t, b)
  | .value, v => .ok v
  | .option _, .null => .ok none
  | .option t, v => some <$> ofValue t v
  | t, v => .error (.typeMismatch t.name v.summary)

def toValue : (t : HostType) → t.El → Value
  | .scalarOf k, x => .scalar ⟨k, x⟩
  | .arrayOf k, xs => .array ⟨k, xs⟩
  | .scalar, s => .scalar s
  | .array, a => .array a
  | .block, ⟨k, b⟩ => .block k b
  | .text, s => .text s
  | .enum, (t, n) => .enum t n
  | .vector, es => .vector es
  | .dictionary, es => .dictionary es
  | .list, vs => .list vs
  | .struct, r => .struct r
  | .pod, r => .pod r
  | .podArray, (t, rs) => .podArray t rs
  | .podBlock, (t, b) => .podBlock t b
  | .named, r => .named r
  | .namedArray, (t, rs) => .namedArray t rs
  | .namedBlock, (t, b) => .namedBlock t b
  | .value, v => v
  | .option _, none => .null
  | .option t, some x => t.toValue x

end HostType

def Record.get (r : Record Value) (t : HostType) (name : String) : Checked t.El :=
  match r.field? name with
  | some v => t.ofValue v
  | none => .error (.missingElement name)

end TypedWire
