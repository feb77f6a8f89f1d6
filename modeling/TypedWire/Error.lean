import TypedWire.Tag

namespace TypedWire

def axesText (axes : List Nat) : String :=
  "[" ++ ", ".intercalate (axes.map toString) ++ "]"

def byteText (b : UInt8) : String :=
  String.ofList [Nat.digitChar (b.toNat / 16), Nat.digitChar (b.toNat % 16)]

inductive ContentFault
  | missing
  | onVoid
  | ragged (bytes width : Nat)
  | flatList
  | unnamed
  deriving DecidableEq

def ContentFault.message : ContentFault → String
  | .missing => "missing payload"
  | .onVoid => "void element carries a payload"
  | .ragged bytes width => s!"{bytes} bytes is not a multiple of element width {width}"
  | .flatList => "container tag with flat payload"
  | .unnamed => "missing type name"

inductive ShapeFault
  | position (n : Nat)
  | dims (dims : List Nat)
  | openField (field typeName : String)
  | layout (typeName : String)
  | emptyField (field : String)
  | noFields (typeName : String)
  | rankZero (what : String)
  | axis (n : Nat)
  | zeroWidth
  | overLimit (size limit : Nat)
  deriving DecidableEq

def ShapeFault.message : ShapeFault → String
  | .position n => s!"position {n} exceeds int32"
  | .dims ds => s!"dimensions {axesText ds} overflow"
  | .openField field typeName => s!"pod field '{field}' of {typeName} has no fixed size"
  | .layout typeName => s!"pod {typeName} layout overflows"
  | .emptyField field => s!"named-array field '{field}' is empty"
  | .noFields typeName => s!"named array {typeName} has no fields"
  | .rankZero what => s!"{what} has rank 0"
  | .axis n => s!"axis of {n} elements"
  | .zeroWidth => "zero-width element"
  | .overLimit size limit => s!"element of {size} bytes exceeds transfer limit of {limit} bytes"

inductive BoundsFault
  | slice (start stop length : Nat)
  | count (counts : List Nat)
  | span (what : String) (pos count length : Nat)
  | axis (what : String) (axis pos count length : Nat)
  | wrap (pos count : Nat)
  deriving DecidableEq

def BoundsFault.message : BoundsFault → String
  | .slice start stop length => s!"slice {start}..{stop} of {length}-element array"
  | .count counts => s!"element count {axesText counts} overflows"
  | .span what pos n length => s!"{what} range {pos}+{n} outside length {length}"
  | .axis what i pos n length => s!"{what} axis {i}: {pos}+{n} outside {length}"
  | .wrap pos n => s!"{pos}+{n} overflows"

inductive WireError
  | typeMismatch (expected found : String)
  | nullNotAllowed (type : String)
  | unsupportedShape (fault : ShapeFault)
  | unsupportedKeyType (type : String)
  | invalidPayload (tag : Tag) (fault : ContentFault)
  | invalidBool (byte : UInt8)
  | invalidUtf8
  | dimensionMismatch (expected found : List Nat)
  | lengthMismatch (expected found : Nat)
  | positionMismatch (expected : Nat) (found : String)
  | duplicateKey (key : String)
  | missingElement (name : String)
  | unexpectedElement (name : String)
  | serviceTypeNotFound (name : String)
  | duplicateNamespace (name : String)
  | outOfBounds (fault : BoundsFault)
  | transport (reason : String)
  | cancelled (completed : Nat)
  /-- Arithmetic that is not guarded has left the 64-bit words; the program stops there. -/
  | overflow
  deriving DecidableEq

abbrev Checked := Except WireError

namespace WireError

def message : WireError → String
  | .typeMismatch expected found => s!"Type mismatch: expected {expected}, found {found}"
  | .nullNotAllowed type => s!"Null value not allowed for {type}"
  | .unsupportedShape fault => s!"Unsupported shape: {fault.message}"
  | .unsupportedKeyType type => s!"Unsupported map key type: {type}"
  | .invalidPayload tag fault => s!"Invalid payload for {tag.label}: {fault.message}"
  | .invalidBool byte => s!"Invalid boolean byte: 0x{byteText byte}"
  | .invalidUtf8 => "Invalid UTF-8 in string payload"
  | .dimensionMismatch expected found =>
    s!"Dimension mismatch: expected {axesText expected}, found {axesText found}"
  | .lengthMismatch expected found => s!"Length mismatch: expected {expected}, found {found}"
  | .positionMismatch expected found =>
    s!"Position mismatch: expected index {expected}, found {found}"
  | .duplicateKey key => s!"Duplicate key: {key}"
  | .missingElement name => s!"Missing element: {name}"
  | .unexpectedElement name => s!"Unexpected element: {name}"
  | .serviceTypeNotFound name => s!"Service type not found: {name}"
  | .duplicateNamespace name => s!"Namespace already registered: {name}"
  | .outOfBounds fault => s!"Out of bounds: {fault.message}"
  | .transport reason => s!"Transport error: {reason}"
  | .cancelled completed => s!"Operation cancelled after {completed} elements"
  | .overflow => "Arithmetic overflow"

/-- The data is at fault, not the link, the caller's patience or the arithmetic. -/
def OfData : WireError → Prop
  | .transport _ | .cancelled _ | .overflow => False
  | _ => True

instance (e : WireError) : Decidable e.OfData := by
  cases e <;> unfold OfData <;> infer_instance

end WireError

end TypedWire
