import TypedWire.Action
import TypedWire.Service

namespace TypedWire

inductive PodPart
  | scalar (kind : NumericKind)
  | array (kind : NumericKind) (len : Extent)
  | block (kind : NumericKind) (dims : List UInt32)
  | pod (of : String) (shape : Shape)
  | named (of : String) (shape : Shape)
  deriving DecidableEq

inductive RangePart
  | items (n : Nat)
  | named (of : String)
  deriving DecidableEq

inductive Declaration
  | struct (typeName : String) (fields : List Field)
  | pod (typeName : String) (fields : List (String × PodPart))
  | named (typeName : String) (kind : NumericKind) (fields : List (String × RangePart))
  deriving DecidableEq

inductive Definition
  | struct (d : StructType)
  | pod (d : PodType)
  | named (d : NamedType)
  deriving DecidableEq

namespace Definition

def struct? : Definition → Option StructType
  | .struct d => some d
  | _ => none

def pod? : Definition → Option PodType
  | .pod d => some d
  | _ => none

def named? : Definition → Option NamedType
  | .named d => some d
  | _ => none

end Definition

def Service.ofDefinitions (name : String) (ds : List Definition) : Checked Service :=
  Service.make name (ds.filterMap (·.struct?)) (ds.filterMap (·.pod?)) (ds.filterMap (·.named?))

/-- The definitions so far, the latest first, with the types in use. -/
structure Session where
  defined : List Definition
  scope : Scope

namespace Session

def empty : Session := ⟨[], .ofRegistry .empty⟩

def registry (s : Session) : Registry := s.scope.registry

def pod (s : Session) (q : String) : Checked PodType :=
  match (s.defined.filterMap (·.pod?)).find? (·.typeName = q) with
  | some d => .ok d
  | none => .error (.serviceTypeNotFound q)

def named (s : Session) (q : String) : Checked NamedType :=
  match (s.defined.filterMap (·.named?)).find? (·.typeName = q) with
  | some d => .ok d
  | none => .error (.serviceTypeNotFound q)

def podMember (s : Session) (name : String) : PodPart → Checked PodMember
  | .scalar k => .ok (.scalar name k)
  | .array k len => .ok (.array name k len)
  | .block k dims => .ok (.block name k dims)
  | .pod of shape => return .pod name (← s.pod of) shape
  | .named of shape => do PodMember.named name (← s.named of) shape

def namedPart (s : Session) : RangePart → Checked NamedPart
  | .items n => .ok (.items n)
  | .named of => return .record (← s.named of)

def resolve (s : Session) : Declaration → Checked Definition
  | .struct t fields => return .struct (← StructType.make t fields)
  | .pod t fields => do
    return .pod (← PodType.make t (← fields.mapM fun (name, p) => s.podMember name p))
  | .named t k fields => do
    let parts ← fields.mapM fun (name, p) => return (name, ← s.namedPart p)
    return .named (← NamedType.make t k parts)

def define (decl : Declaration) : Action Session Definition := do
  let d ← .ofChecked ((← get).resolve decl)
  modify fun s => { s with defined := d :: s.defined }
  return d

def service (name : String) (decls : List Declaration) : Action Session Service := do
  .ofChecked (Service.ofDefinitions name (← decls.mapM define))

def use (Γ : Scope) : Action Session Unit := modify fun s => { s with scope := Γ }

def register (s : Service) : Action Session Unit := do
  let Γ := (← get).scope
  use { Γ with registry := ← .ofChecked (Γ.registry.register s) }

def bind (ns : Option String) : Action Session Unit := do
  let r := (← get).registry
  match ns with
  | some ns => use (← .ofChecked (Scope.bind r ns))
  | none => use (.ofRegistry r)

def adopt (s : Service) : Action Session Unit := do use (.ofService (← get).registry s)

end Session

end TypedWire
