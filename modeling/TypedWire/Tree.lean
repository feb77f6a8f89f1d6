import TypedWire.Numeric.Numbers

namespace TypedWire

inductive Key
  | name (s : String)
  | index (i : Int32)
  deriving DecidableEq

namespace Key

def text : Key → String
  | .name s => s!"'{s}'"
  | .index i => s!"#{i.toInt}"

def name? : Key → Option String
  | .name s => some s
  | .index _ => none

def index? : Key → Option Int32
  | .name _ => none
  | .index i => some i

end Key

inductive Element
  | void (key : Key)
  | flat (key : Key) (form : FlatForm) (bytes : List UInt8)
  | nested (key : Key) (kind : ListKind) (typeName : Option String) (items : List Element)

structure Container (α : Type _) where
  kind : ListKind
  typeName : Option String
  items : List α

namespace Container

variable {α β : Type _}

/-- Kinds of user-defined types need a type name that is not empty. -/
def make (kind : ListKind) (typeName : Option String) (items : List α) : Checked (Container α) :=
  if kind.NeedsTypeName ∧ typeName.getD "" = "" then
    .error (.invalidPayload (.list kind) .unnamed)
  else .ok ⟨kind, typeName, items⟩

def map (f : α → β) (l : Container α) : Container β := ⟨l.kind, l.typeName, l.items.map f⟩

def expectType (l : Container α) (expected : String) : Checked Unit :=
  if l.typeName = some expected then .ok ()
  else .error (.typeMismatch expected (l.typeName.getD "<unnamed>"))

def expectKind (l : Container α) (kind : ListKind) (expected : String) : Checked Unit :=
  if l.kind = kind then .ok () else .error (.typeMismatch expected l.kind.label)

end Container

inductive Content
  | none
  | flat (bytes : List UInt8)
  | nested (list : Container Element)

namespace Element

def key : Element → Key
  | .void i => i
  | .flat i _ _ => i
  | .nested i _ _ _ => i

def tag : Element → Tag
  | .void _ => .void
  | .flat _ form _ => .flat form
  | .nested _ kind _ _ => .list kind

def content : Element → Content
  | .void _ => .none
  | .flat _ _ bytes => .flat bytes
  | .nested _ kind typeName items => .nested ⟨kind, typeName, items⟩

def make (i : Key) : Tag → Content → Checked Element
  | .void, .none => .ok (.void i)
  | t, .none => .error (.invalidPayload t .missing)
  | .void, _ => .error (.invalidPayload .void .onVoid)
  | .flat form, .flat bytes =>
    if bytes.length % form.width = 0 then .ok (.flat i form bytes)
    else .error (.invalidPayload (.flat form) (.ragged bytes.length form.width))
  | .list kind, .flat _ => .error (.invalidPayload (.list kind) .flatList)
  | t, .nested l =>
    if t = .list l.kind then .ok (.nested i l.kind l.typeName l.items)
    else .error (.typeMismatch t.label s!"{l.kind.label} list")

def ofArray (i : Key) (a : Numbers) : Element := .flat i (.numeric a.kind) a.bytes

def ofText (i : Key) (s : String) : Element := .flat i .text s.toByteArray.data.toList

def ofList (i : Key) (l : Container Element) : Element := .nested i l.kind l.typeName l.items

@[simp] theorem key_ofArray (i : Key) (a : Numbers) : (ofArray i a).key = i := rfl

@[simp] theorem key_ofText (i : Key) (s : String) : (ofText i s).key = i := rfl

@[simp] theorem key_ofList (i : Key) (l : Container Element) : (ofList i l).key = i := rfl

def withKey (i : Key) : Element → Element
  | .void _ => .void i
  | .flat _ form bytes => .flat i form bytes
  | .nested _ kind typeName items => .nested i kind typeName items

@[simp] theorem key_withKey (i : Key) (e : Element) : (e.withKey i).key = i := by
  cases e <;> rfl

@[simp] theorem withKey_key (e : Element) : e.withKey e.key = e := by cases e <;> rfl

def arrayOf (k : NumericKind) (e : Element) : Checked Numbers :=
  match e with
  | .flat _ (.numeric k') bytes =>
    if k' = k then Numbers.ofBytes k bytes
    else .error (.typeMismatch k.name e.tag.label)
  | _ => .error (.typeMismatch k.name e.tag.label)

def array (e : Element) : Checked Numbers :=
  match e.tag.numericKind? with
  | some k => e.arrayOf k
  | none => .error (.typeMismatch "numeric array" e.tag.label)

def text (e : Element) : Checked String :=
  match e with
  | .flat _ .text bytes =>
    match String.fromUTF8? ⟨bytes.toArray⟩ with
    | some s => .ok s
    | none => .error .invalidUtf8
  | _ => .error (.typeMismatch "string" e.tag.label)

def listOf (k : ListKind) (e : Element) : Checked (Container Element) :=
  match e with
  | .nested _ kind typeName items =>
    if kind = k then .ok ⟨kind, typeName, items⟩
    else .error (.typeMismatch k.label e.tag.label)
  | _ => .error (.typeMismatch k.label e.tag.label)

def list (e : Element) : Checked (Container Element) :=
  match e with
  | .nested _ kind typeName items => .ok ⟨kind, typeName, items⟩
  | _ => .error (.typeMismatch "container" e.tag.label)

@[simp] theorem list_ofList (i : Key) (l : Container Element) : (ofList i l).list = .ok l := rfl

@[simp] theorem listOf_ofList (i : Key) (l : Container Element) :
    (ofList i l).listOf l.kind = .ok l := by simp [ofList, listOf]

mutual

/-- Every node passes the checks of `Element.make` and `Container.make`. -/
def WellFormed : Element → Prop
  | .void _ => True
  | .flat _ form bytes => bytes.length % form.width = 0
  | .nested _ kind typeName items =>
    (kind.NeedsTypeName → typeName.getD "" ≠ "") ∧ AllWellFormed items

def AllWellFormed : List Element → Prop
  | [] => True
  | e :: es => e.WellFormed ∧ AllWellFormed es

end

end Element

end TypedWire
