import TypedWire.Definition

namespace TypedWire

structure Service where
  name : String
  structs : List (String × StructType)
  pods : List (String × PodType)
  named : List (String × NamedType)

namespace Service

def index {δ : Type} (owner : String) (typeName : δ → String) (seen : List (String × δ)) :
    List δ → Checked (List (String × δ))
  | [] => .ok seen
  | d :: ds => do
    let (ns, name) ← splitName (typeName d)
    if ns ≠ owner then .error (.typeMismatch s!"type in namespace {owner}" (typeName d))
    else if seen.any (·.1 = name) then .error (.duplicateKey (typeName d))
    else index owner typeName (seen ++ [(name, d)]) ds

def make (owner : String) (structs : List StructType) (pods : List PodType)
    (named : List NamedType) : Checked Service := do
  let structs ← index owner StructType.typeName [] structs
  let pods ← index owner PodType.typeName [] pods
  let named ← index owner NamedType.typeName [] named
  return ⟨owner, structs, pods, named⟩

def struct? (s : Service) (name : String) : Option StructType := s.structs.lookup name

def pod? (s : Service) (name : String) : Option PodType := s.pods.lookup name

def named? (s : Service) (name : String) : Option NamedType := s.named.lookup name

end Service

structure Registry where
  services : List Service

namespace Registry

def empty : Registry := ⟨[]⟩

def get? (r : Registry) (ns : String) : Option Service := r.services.find? (·.name = ns)

def register (r : Registry) (s : Service) : Checked Registry :=
  if s.name = "" then .error (.serviceTypeNotFound "")
  else if (r.get? s.name).isSome then .error (.duplicateNamespace s.name)
  else .ok ⟨r.services ++ [s]⟩

theorem get?_register {r r' : Registry} {s : Service} (h : r.register s = .ok r') (ns : String) :
    r'.get? ns = if s.name = ns then some s else r.get? ns := by
  unfold register at h
  split at h
  · cases h
  · split at h
    · cases h
    · rename_i hn
      cases h
      simp only [get?, List.find?_append]
      by_cases hs : s.name = ns
      · subst hs
        rw [Option.not_isSome_iff_eq_none, get?] at hn
        simp [hn]
      · simp [hs]

def service (r : Registry) (ns : String) : Checked Service :=
  match r.get? ns with
  | some s => .ok s
  | none => .error (.serviceTypeNotFound ns)

def resolve (r : Registry) (q : String) : Checked (String × String) := do
  let (ns, name) ← splitName q
  if (r.get? ns).isSome then return (ns, name) else .error (.serviceTypeNotFound q)

def names (r : Registry) : List String := (r.services.map (·.name)).mergeSort

end Registry

/-- Packs and unpacks with the types of a registry and, before it, of one service of its own. -/
structure Scope where
  own? : Option Service
  registry : Registry

namespace Scope

def ofRegistry (r : Registry) : Scope := ⟨none, r⟩

def bind (r : Registry) (ns : String) : Checked Scope := return ⟨some (← r.service ns), r⟩

def ofService (r : Registry) (s : Service) : Scope := ⟨some s, r⟩

def service? (Γ : Scope) (ns : String) : Option Service :=
  match Γ.own? with
  | some s => if s.name = ns then some s else Γ.registry.get? ns
  | none => Γ.registry.get? ns

def definition {δ : Type} (Γ : Scope) (find : Service → String → Option δ) (q : String) :
    Checked δ := do
  let (ns, name) ← splitName q
  match (Γ.service? ns).bind (find · name) with
  | some d => return d
  | none => .error (.serviceTypeNotFound q)

def struct (Γ : Scope) (q : String) : Checked StructType := Γ.definition Service.struct? q

def pod (Γ : Scope) (q : String) : Checked PodType := Γ.definition Service.pod? q

def named (Γ : Scope) (q : String) : Checked NamedType := Γ.definition Service.named? q

end Scope

end TypedWire
