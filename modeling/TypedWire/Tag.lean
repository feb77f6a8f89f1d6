namespace TypedWire

inductive NumericKind
  | double
  | single
  | int8
  | uint8
  | int16
  | uint16
  | int32
  | uint32
  | int64
  | uint64
  | bool
  | complexDouble
  | complexSingle
  deriving DecidableEq

namespace NumericKind

def all : List NumericKind :=
  [.double, .single, .int8, .uint8, .int16, .uint16, .int32, .uint32, .int64, .uint64, .bool,
    .complexDouble, .complexSingle]

theorem mem_all (k : NumericKind) : k ∈ all := by cases k <;> decide

def width : NumericKind → Nat
  | .int8 | .uint8 | .bool => 1
  | .int16 | .uint16 => 2
  | .single | .int32 | .uint32 => 4
  | .double | .int64 | .uint64 | .complexSingle => 8
  | .complexDouble => 16

theorem width_pos (k : NumericKind) : 0 < k.width := by cases k <;> decide

def name : NumericKind → String
  | .double => "double"
  | .single => "single"
  | .int8 => "int8"
  | .uint8 => "uint8"
  | .int16 => "int16"
  | .uint16 => "uint16"
  | .int32 => "int32"
  | .uint32 => "uint32"
  | .int64 => "int64"
  | .uint64 => "uint64"
  | .bool => "bool"
  | .complexDouble => "cdouble"
  | .complexSingle => "csingle"

def ofName? (s : String) : Option NumericKind := all.find? (·.name = s)

@[simp] theorem ofName?_name (k : NumericKind) : ofName? k.name = some k := by
  cases k <;> decide

def label : NumericKind → String
  | .double => "Double"
  | .single => "Single"
  | .int8 => "Int8"
  | .uint8 => "UInt8"
  | .int16 => "Int16"
  | .uint16 => "UInt16"
  | .int32 => "Int32"
  | .uint32 => "UInt32"
  | .int64 => "Int64"
  | .uint64 => "UInt64"
  | .bool => "Bool"
  | .complexDouble => "ComplexDouble"
  | .complexSingle => "ComplexSingle"

end NumericKind

inductive ListKind
  | struct
  | block
  | podArray
  | podBlock
  | namedArray
  | namedBlock
  | vector
  | dictionary
  | list
  deriving DecidableEq

namespace ListKind

def all : List ListKind :=
  [.struct, .block, .podArray, .podBlock, .namedArray, .namedBlock, .vector, .dictionary, .list]

theorem mem_all (k : ListKind) : k ∈ all := by cases k <;> decide

def label : ListKind → String
  | .struct => "Structure"
  | .block => "MultiDimArray"
  | .podArray => "PodArray"
  | .podBlock => "PodMultiDimArray"
  | .namedArray => "NamedArrayArray"
  | .namedBlock => "NamedArrayMultiDimArray"
  | .vector => "Vector"
  | .dictionary => "Dictionary"
  | .list => "List"

def ofLabel? (s : String) : Option ListKind := all.find? (·.label = s)

@[simp] theorem ofLabel?_label (k : ListKind) : ofLabel? k.label = some k := by
  cases k <;> decide

def NeedsTypeName : ListKind → Prop
  | .struct | .podArray | .podBlock | .namedArray | .namedBlock => True
  | .block | .vector | .dictionary | .list => False

instance (k : ListKind) : Decidable k.NeedsTypeName := by
  cases k <;> unfold NeedsTypeName <;> infer_instance

end ListKind

inductive FlatForm
  | numeric (kind : NumericKind)
  | text
  deriving DecidableEq

namespace FlatForm

def width : FlatForm → Nat
  | .numeric .int8 | .numeric .uint8 | .numeric .bool | .text => 1
  | .numeric .int16 | .numeric .uint16 => 2
  | .numeric .single | .numeric .int32 | .numeric .uint32 => 4
  | .numeric .double | .numeric .int64 | .numeric .uint64 | .numeric .complexSingle => 8
  | .numeric .complexDouble => 16

@[simp] theorem width_numeric (k : NumericKind) : width (.numeric k) = k.width := by
  cases k <;> rfl

end FlatForm

inductive Tag
  | void
  | flat (form : FlatForm)
  | list (kind : ListKind)
  deriving DecidableEq

namespace Tag

def all : List Tag :=
  .void :: .flat .text ::
    NumericKind.all.map (fun k => .flat (.numeric k)) ++ ListKind.all.map .list

theorem mem_all (t : Tag) : t ∈ all := by
  rcases t with _ | ⟨k | _⟩ | k <;> (try cases k) <;> decide

def code : Tag → Nat
  | .void => 0
  | .flat (.numeric .double) => 1
  | .flat (.numeric .single) => 2
  | .flat (.numeric .int8) => 3
  | .flat (.numeric .uint8) => 4
  | .flat (.numeric .int16) => 5
  | .flat (.numeric .uint16) => 6
  | .flat (.numeric .int32) => 7
  | .flat (.numeric .uint32) => 8
  | .flat (.numeric .int64) => 9
  | .flat (.numeric .uint64) => 10
  | .flat .text => 11
  | .flat (.numeric .complexDouble) => 12
  | .flat (.numeric .complexSingle) => 13
  | .flat (.numeric .bool) => 14
  | .list .struct => 101
  | .list .vector => 102
  | .list .dictionary => 103
  | .list .list => 108
  | .list .podArray => 110
  | .list .podBlock => 111
  | .list .namedArray => 115
  | .list .namedBlock => 116
  | .list .block => 117

def ofCode? (n : Nat) : Option Tag := all.find? (·.code = n)

@[simp] theorem ofCode?_code (t : Tag) : ofCode? t.code = some t := by
  rcases t with _ | ⟨k | _⟩ | k <;> (try cases k) <;> decide

theorem code_of_ofCode? {n : Nat} {t : Tag} (h : ofCode? n = some t) : t.code = n := by
  simpa using List.find?_some h

def label : Tag → String
  | .void => "Void"
  | .flat (.numeric k) => k.label
  | .flat .text => "String"
  | .list k => k.label

def width? : Tag → Option Nat
  | .flat form => some form.width
  | .void | .list _ => none

def numericKind? : Tag → Option NumericKind
  | .flat (.numeric k) => some k
  | _ => none

def listKind? : Tag → Option ListKind
  | .list k => some k
  | _ => none

end Tag

end TypedWire
