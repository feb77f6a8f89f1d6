import TypedWire.Proofs.Entries
import TypedWire.Proofs.Packing

/-!
Normal forms: what a value is after it has been packed and unpacked again.

A declared type tells a single number, an enum and a single record from an array of one; the tag of
an element, which decides under an open type, does not. The normal form widens exactly what stands
under an open type, and looks into a structure by the types that its fields are declared with.
-/

namespace TypedWire

namespace Scope

mutual

/-- The value as it comes back from under the type. -/
def normal (Γ : Scope) : Value → Ty → Value
  | .scalar s, .any => .array s.toArray
  | .enum _ n, .any => .array ⟨.int32, [Item.ofInt32 n]⟩
  | .pod r, .any => .podArray r.typeName [r]
  | .named r, .any => .namedArray r.typeName [r]
  | .vector es, .any => .vector (normalVector Γ es .any)
  | .vector es, .map _ value => .vector (normalVector Γ es value)
  | .dictionary es, .any => .dictionary (normalDictionary Γ es .any)
  | .dictionary es, .map _ value => .dictionary (normalDictionary Γ es value)
  | .list vs, .any => .list (normalList Γ vs .any)
  | .list vs, .list item => .list (normalList Γ vs item)
  | .struct r, .any => .struct (normalRecord Γ r.typeName r)
  | .struct r, .struct t => .struct (normalRecord Γ t r)
  | v, _ => v

def normalVector (Γ : Scope) : List (Int32 × Value) → Ty → List (Int32 × Value)
  | [], _ => []
  | (k, v) :: es, d => (k, normal Γ v d) :: normalVector Γ es d

def normalDictionary (Γ : Scope) : List (String × Value) → Ty → List (String × Value)
  | [], _ => []
  | (k, v) :: es, d => (k, normal Γ v d) :: normalDictionary Γ es d

def normalList (Γ : Scope) : List Value → Ty → List Value
  | [], _ => []
  | v :: vs, d => normal Γ v d :: normalList Γ vs d

def normalRecord (Γ : Scope) (t : String) : Record Value → Record Value
  | ⟨u, fields⟩ =>
    match Γ.struct t with
    | .ok s => ⟨u, normalFields Γ s.fields fields⟩
    | .error _ => ⟨u, fields⟩

def normalFields (Γ : Scope) (table : List Field) : List (String × Value) → List (String × Value)
  | [] => []
  | (k, v) :: fields =>
    match table.find? (·.name = k) with
    | some f => (k, normal Γ v f.ty) :: normalFields Γ table fields
    | none => (k, v) :: normalFields Γ table fields

end

variable {Γ : Scope} {d : Ty}

theorem normalVector_eq (es : List (Int32 × Value)) :
    Γ.normalVector es d = es.map fun e => (e.1, Γ.normal e.2 d) := by
  induction es with
  | nil => rfl
  | cons e es ih => rw [normalVector, ih, List.map_cons]

theorem normalDictionary_eq (es : List (String × Value)) :
    Γ.normalDictionary es d = es.map fun e => (e.1, Γ.normal e.2 d) := by
  induction es with
  | nil => rfl
  | cons e es ih => rw [normalDictionary, ih, List.map_cons]

theorem normalList_eq (vs : List Value) : Γ.normalList vs d = vs.map (Γ.normal · d) := by
  induction vs with
  | nil => rfl
  | cons v vs ih => rw [normalList, ih, List.map_cons]

def normalField (Γ : Scope) (table : List Field) (k : String) (v : Value) : Value :=
  match table.find? (·.name = k) with
  | some f => Γ.normal v f.ty
  | none => v

theorem normalFields_eq (table : List Field) (fields : List (String × Value)) :
    Γ.normalFields table fields = fields.map fun e => (e.1, Γ.normalField table e.1 e.2) := by
  induction fields with
  | nil => rfl
  | cons e fields ih =>
    rw [normalFields, List.map_cons, ← ih, normalField]
    cases table.find? (·.name = e.1) <;> rfl

theorem normalFields_eq_self {table : List Field} {fields : List (String × Value)}
    (h : ∀ f ∈ table, ∀ e ∈ fields, e.1 = f.name → Γ.normal e.2 f.ty = e.2) :
    Γ.normalFields table fields = fields := by
  rw [normalFields_eq]
  refine (List.map_congr_left fun e he => ?_).trans (List.map_id fields)
  rw [normalField]
  cases hf : table.find? (·.name = e.1) with
  | none => rfl
  | some f =>
    have hname : f.name = e.1 := by simpa using List.find?_some hf
    exact Prod.ext rfl (h f (List.mem_of_find?_eq_some hf) e he hname.symm)

theorem get?_normalFields {table : List Field} (hd : (table.map (·.name)).Nodup) {f : Field}
    (hf : f ∈ table) (fields : List (String × Value)) :
    Entries.get? f.name (Γ.normalFields table fields) =
      (Entries.get? f.name fields).map (Γ.normal · f.ty) := by
  rw [normalFields_eq, Entries.get?_mapEntries]
  congr 1
  funext v
  rw [normalField, find?_named hd hf]

theorem sorted_normalFields {fields : List (String × Value)} (h : Entries.Sorted fields)
    (table : List Field) : Entries.Sorted (Γ.normalFields table fields) := by
  rw [normalFields_eq]
  exact h.mapEntries _

section Equations

theorem normal_vector {es : List (Int32 × Value)} {key value : Ty}
    (h : d.orOwn (.vector es) = .map key value) :
    Γ.normal (.vector es) d = .vector (es.map fun e => (e.1, Γ.normal e.2 value)) := by
  cases d <;> cases h <;> rw [normal, normalVector_eq]

theorem normal_dictionary {es : List (String × Value)} {key value : Ty}
    (h : d.orOwn (.dictionary es) = .map key value) :
    Γ.normal (.dictionary es) d = .dictionary (es.map fun e => (e.1, Γ.normal e.2 value)) := by
  cases d <;> cases h <;> rw [normal, normalDictionary_eq]

theorem normal_list {vs : List Value} {item : Ty} (h : d.orOwn (.list vs) = .list item) :
    Γ.normal (.list vs) d = .list (vs.map (Γ.normal · item)) := by
  cases d <;> cases h <;> rw [normal, normalList_eq]

theorem normal_struct {r : Record Value} {s : StructType}
    (h : d.orOwn (.struct r) = .struct r.typeName) (hs : Γ.struct r.typeName = .ok s) :
    Γ.normal (.struct r) d = .struct ⟨r.typeName, Γ.normalFields s.fields r.fields⟩ := by
  have hr : Γ.normalRecord r.typeName r = ⟨r.typeName, Γ.normalFields s.fields r.fields⟩ := by
    rw [normalRecord, hs]
  cases d <;> cases h <;> rw [normal, hr]

theorem normal_any {v : Value} (hv : v.ty.Nullable) : Γ.normal v .any = Γ.normal v v.ty := by
  cases v <;> first | exact hv.elim | simp only [normal, Value.ty]

end Equations

theorem map_twice {α : Type} {f : α → α} {l : List α} (h : ∀ x ∈ l, f (f x) = f x) :
    (l.map f).map f = l.map f := by
  rw [List.map_map]
  exact List.map_congr_left h

theorem normal_normal (v : Value) (d : Ty) : Γ.normal (Γ.normal v d) d = Γ.normal v d := by
  induction v generalizing d with
  | scalar s => cases d <;> rfl
  | enum t n => cases d <;> rfl
  | pod r => cases d <;> rfl
  | named r => cases d <;> rfl
  | vector es ih =>
    have htwice : ∀ value, _ := fun value =>
      map_twice (f := fun e : Int32 × Value => (e.1, Γ.normal e.2 value)) (l := es)
        fun e he => by rw [ih e he]
    cases d with
    | any => simp only [normal, normalVector_eq, htwice]
    | map key value => simp only [normal, normalVector_eq, htwice]
    | _ => rfl
  | dictionary es ih =>
    have htwice : ∀ value, _ := fun value =>
      map_twice (f := fun e : String × Value => (e.1, Γ.normal e.2 value)) (l := es)
        fun e he => by rw [ih e he]
    cases d with
    | any => simp only [normal, normalDictionary_eq, htwice]
    | map key value => simp only [normal, normalDictionary_eq, htwice]
    | _ => rfl
  | list vs ih =>
    have htwice : ∀ item, _ := fun item =>
      map_twice (f := fun v => Γ.normal v item) (l := vs) fun v hv => ih v hv item
    cases d with
    | any => simp only [normal, normalList_eq, htwice]
    | list item => simp only [normal, normalList_eq, htwice]
    | _ => rfl
  | struct r ih =>
    have htwice : ∀ t, Γ.normalRecord t (Γ.normalRecord t r) = Γ.normalRecord t r := by
      intro t
      rcases r with ⟨u, fields⟩
      cases hs : Γ.struct t with
      | error e => simp only [normalRecord, hs]
      | ok s =>
        simp only [normalRecord, hs, normalFields_eq]
        rw [map_twice]
        intro e he
        simp only [normalField]
        cases s.fields.find? (·.name = e.1) with
        | none => rfl
        | some f => simp only [ih e he]
    have hname : ∀ t, (Γ.normalRecord t r).typeName = r.typeName := by
      intro t
      rcases r with ⟨u, fields⟩
      rw [normalRecord]
      cases Γ.struct t <;> rfl
    cases d with
    | any => simp only [normal, hname, htwice]
    | struct t => simp only [normal, htwice]
    | _ => rfl
  | _ => simp only [normal]

end Scope

end TypedWire
