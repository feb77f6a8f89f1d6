import TypedWire.Block

namespace TypedWire

inductive Extent
  | free
  | fixed (n : Nat)
  | bounded (n : Nat)
  deriving DecidableEq

namespace Extent

def check (len : Extent) (n : Nat) : Checked Unit :=
  match len with
  | .free => .ok ()
  | .fixed m => if n = m then .ok () else .error (.lengthMismatch m n)
  | .bounded m => if n ≤ m then .ok () else .error (.lengthMismatch m n)

def max? : Extent → Option Nat
  | .free => none
  | .fixed n | .bounded n => some n

def text : Extent → String
  | .free => "[]"
  | .fixed n => s!"[{n}]"
  | .bounded n => s!"[{n}-]"

end Extent

def dimsText : Option (List UInt32) → String
  | some dims => axesText (axes dims)
  | none => "[*]"

inductive Shape
  | single
  | array (len : Extent)
  | block (dims : Option (List UInt32))
  deriving DecidableEq

namespace Shape

def recordCount? : Shape → Option Nat
  | .single => some 1
  | .array len => len.max?
  | .block (some dims) => count? (axes dims)
  | .block none => none

def text : Shape → String
  | .single => ""
  | .array len => len.text
  | .block dims => dimsText dims

end Shape

inductive Ty
  | any
  | scalar (kind : NumericKind)
  | array (kind : NumericKind) (len : Extent)
  | block (kind : NumericKind) (dims : Option (List UInt32))
  | text
  | enum (typeName : String)
  | map (key value : Ty)
  | list (item : Ty)
  | struct (typeName : String)
  | pod (typeName : String) (shape : Shape)
  | named (typeName : String) (shape : Shape)
  deriving DecidableEq

inductive KeyKind
  | int32
  | text
  deriving DecidableEq

namespace Ty

def render : Ty → String
  | .any => "varvalue"
  | .scalar k => k.name
  | .array k len => k.name ++ len.text
  | .block k dims => k.name ++ dimsText dims
  | .text => "string"
  | .enum t => "enum " ++ t
  | .map key value => value.render ++ "\x7b" ++ key.render ++ "\x7d"
  | .list item => item.render ++ "\x7blist\x7d"
  | .struct t => t
  | .pod t shape | .named t shape => t ++ shape.text

/-- A void element stands for a value of the type. -/
def Nullable : Ty → Prop
  | .scalar _ | .enum _ | .pod _ .single | .named _ .single => False
  | _ => True

instance (d : Ty) : Decidable d.Nullable := by
  unfold Nullable
  split <;> infer_instance

def keyKind : Ty → Checked KeyKind
  | .scalar .int32 => .ok .int32
  | .text => .ok .text
  | d => .error (.unsupportedKeyType d.render)

end Ty

end TypedWire
