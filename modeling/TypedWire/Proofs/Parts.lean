import TypedWire.Proofs.Results
import TypedWire.Decode

namespace TypedWire

section Induction

def Record.Every (P : Value → Prop) (r : Record Value) : Prop := ∀ f ∈ r.fields, P f.2

@[elab_as_elim, induction_eliminator]
theorem Value.induct {motive : Value → Prop}
    (null : motive .null)
    (scalar : ∀ s, motive (.scalar s))
    (array : ∀ a, motive (.array a))
    (block : ∀ k b, motive (.block k b))
    (text : ∀ s, motive (.text s))
    (enum : ∀ t n, motive (.enum t n))
    (vector : ∀ es : List (Int32 × Value), (∀ e ∈ es, motive e.2) → motive (.vector es))
    (dictionary : ∀ es : List (String × Value), (∀ e ∈ es, motive e.2) → motive (.dictionary es))
    (list : ∀ vs : List Value, (∀ v ∈ vs, motive v) → motive (.list vs))
    (struct : ∀ r : Record Value, r.Every motive → motive (.struct r))
    (pod : ∀ r : Record Value, r.Every motive → motive (.pod r))
    (podArray : ∀ t (rs : List (Record Value)), (∀ r ∈ rs, r.Every motive) →
      motive (.podArray t rs))
    (podBlock : ∀ t dims (rs : List (Record Value)), (∀ r ∈ rs, r.Every motive) →
      motive (.podBlock t ⟨dims, rs⟩))
    (named : ∀ r, motive (.named r))
    (namedArray : ∀ t rs, motive (.namedArray t rs))
    (namedBlock : ∀ t b, motive (.namedBlock t b))
    (v : Value) : motive v := by
  refine @Value.rec motive (fun es => ∀ e ∈ es, motive e.2) (fun es => ∀ e ∈ es, motive e.2)
    (fun vs => ∀ v ∈ vs, motive v) (fun r => r.Every motive) (fun rs => ∀ r ∈ rs, r.Every motive)
    (fun b => ∀ r ∈ b.items, r.Every motive) (fun e => motive e.2) (fun e => motive e.2)
    null scalar array block text enum vector dictionary list struct pod podArray
    (fun t b => podBlock t b.dims b.items) named namedArray namedBlock
    ?_ ?_ ?_ ?_ ?_ ?_ (fun _ _ h => h) ?_ ?_ (fun _ _ h => h) (fun _ _ h => h) (fun _ _ h => h) v
  all_goals first
    | exact fun _ h => absurd h List.not_mem_nil
    | exact fun _ _ hd tl => List.forall_mem_cons.mpr ⟨hd, tl⟩

@[elab_as_elim, induction_eliminator]
theorem Element.induct {motive : Element → Prop}
    (void : ∀ i, motive (.void i))
    (flat : ∀ i form bytes, motive (.flat i form bytes))
    (nested : ∀ i kind t (es : List Element), (∀ e ∈ es, motive e) → motive (.nested i kind t es))
    (e : Element) : motive e := by
  refine @Element.rec motive (fun es => ∀ e ∈ es, motive e) void flat nested
    (fun _ h => absurd h List.not_mem_nil) (fun _ _ hd tl => ?_) e
  exact List.forall_mem_cons.mpr ⟨hd, tl⟩

end Induction

namespace Value

theorem vectorWellFormed_iff {es : List (Int32 × Value)} :
    VectorWellFormed es ↔ ∀ e ∈ es, e.2.WellFormed := by
  induction es with
  | nil => simp [VectorWellFormed]
  | cons e es ih => rw [VectorWellFormed, ih, List.forall_mem_cons]

theorem fieldsWellFormed_iff {es : List (String × Value)} :
    FieldsWellFormed es ↔ ∀ e ∈ es, e.2.WellFormed := by
  induction es with
  | nil => simp [FieldsWellFormed]
  | cons e es ih => rw [FieldsWellFormed, ih, List.forall_mem_cons]

theorem listWellFormed_iff {vs : List Value} : ListWellFormed vs ↔ ∀ v ∈ vs, v.WellFormed := by
  induction vs with
  | nil => simp [ListWellFormed]
  | cons v vs ih => rw [ListWellFormed, ih, List.forall_mem_cons]

theorem recordWellFormed_iff {r : Record Value} :
    RecordWellFormed r ↔ Entries.Sorted r.fields ∧ r.Every WellFormed := by
  rw [RecordWellFormed, fieldsWellFormed_iff]
  rfl

theorem RecordWellFormed.sorted {r : Record Value} (h : RecordWellFormed r) :
    Entries.Sorted r.fields := (recordWellFormed_iff.mp h).1

theorem RecordWellFormed.every {P : Value → Prop} {r : Record Value} (h : RecordWellFormed r)
    (hP : r.Every fun v => v.WellFormed → P v) : r.Every P := by
  intro f hf
  exact hP f hf ((recordWellFormed_iff.mp h).2 f hf)

theorem recordsWellFormed_iff {rs : List (Record Value)} :
    RecordsWellFormed rs ↔ ∀ r ∈ rs, RecordWellFormed r := by
  induction rs with
  | nil => simp [RecordsWellFormed]
  | cons r rs ih => rw [RecordsWellFormed, ih, List.forall_mem_cons]

end Value

namespace Element

def children : Element → List Element
  | .nested _ _ _ es => es
  | _ => []

inductive Everywhere (P : Element → Prop) : Element → Prop
  | mk {e : Element} : P e → (∀ c ∈ e.children, Everywhere P c) → Everywhere P e

section Everywhere

variable {P : Element → Prop} {e : Element}

theorem Everywhere.here (h : e.Everywhere P) : P e := by
  cases h
  assumption

theorem Everywhere.inside (h : e.Everywhere P) : ∀ c ∈ e.children, c.Everywhere P := by
  cases h
  assumption

theorem everywhere (h : ∀ e : Element, (∀ c ∈ e.children, c.Everywhere P) → P e) (e : Element) :
    e.Everywhere P := by
  induction e with
  | void i => exact ⟨h _ (List.forall_mem_nil _), List.forall_mem_nil _⟩
  | flat i form bytes => exact ⟨h _ (List.forall_mem_nil _), List.forall_mem_nil _⟩
  | nested i kind t es ih => exact ⟨h _ ih, ih⟩

end Everywhere

@[simp] theorem tag_ofArray (i : Key) (a : Numbers) :
    (ofArray i a).tag = .flat (.numeric a.kind) := rfl

@[simp] theorem tag_ofText (i : Key) (s : String) : (ofText i s).tag = .flat .text := rfl

@[simp] theorem tag_ofList (i : Key) (l : Container Element) : (ofList i l).tag = .list l.kind :=
  rfl

@[simp] theorem tag_flat (i : Key) (form : FlatForm) (bytes : List UInt8) :
    (flat i form bytes).tag = .flat form := rfl

@[simp] theorem tag_nested (i : Key) (kind : ListKind) (t : Option String) (es : List Element) :
    (nested i kind t es).tag = .list kind := rfl

theorem listOf_eq_ok {k : ListKind} {e : Element} {l : Container Element} :
    e.listOf k = .ok l ↔ l.kind = k ∧ e = .ofList e.key l := by
  rcases l with ⟨kind, t, items⟩
  cases e with
  | void => simp [listOf, ofList]
  | flat => simp [listOf, ofList]
  | nested i kind' t' es =>
    simp only [listOf, Checked.guard_eq_ok, Except.ok.injEq, ofList, key, nested.injEq,
      Container.mk.injEq, true_and]
    constructor
    · rintro ⟨rfl, rfl, rfl, rfl⟩
      exact ⟨rfl, rfl, rfl, rfl⟩
    · rintro ⟨rfl, rfl, rfl, rfl⟩
      exact ⟨rfl, rfl, rfl, rfl⟩

theorem exists_of_listOf {k : ListKind} {e : Element} {l : Container Element}
    (h : e.listOf k = .ok l) : ∃ i, e = .nested i k l.typeName l.items := by
  obtain ⟨rfl, he⟩ := listOf_eq_ok.mp h
  exact ⟨_, he⟩

theorem children_of_listOf {k : ListKind} {e : Element} {l : Container Element}
    (h : e.listOf k = .ok l) : e.children = l.items := by
  obtain ⟨i, rfl⟩ := exists_of_listOf h
  rfl

end Element

namespace Scope

variable (Γ : Scope)

@[simp] theorem encodeVector_eq (es : List (Int32 × Value)) :
    Γ.encodeVector es = es.map fun e => (e.1, Γ.encode e.2) := by
  induction es with
  | nil => rfl
  | cons e es ih => rw [encodeVector, ih, List.map_cons]

@[simp] theorem encodeNamedValues_eq (es : List (String × Value)) :
    Γ.encodeNamedValues es = es.map fun e => (e.1, Γ.encode e.2) := by
  induction es with
  | nil => rfl
  | cons e es ih => rw [encodeNamedValues, ih, List.map_cons]

@[simp] theorem encodeValues_eq (vs : List Value) : Γ.encodeValues vs = vs.map Γ.encode := by
  induction vs with
  | nil => rfl
  | cons v vs ih => rw [encodeValues, ih, List.map_cons]

@[simp] theorem encodeAllParts_eq (rs : List (Record Value)) :
    Γ.encodeAllParts rs = rs.map Γ.encodeParts := by
  induction rs with
  | nil => rfl
  | cons r rs ih => rw [encodeAllParts, ih, List.map_cons]

@[simp] theorem typeName_encodeParts (r : Record Value) :
    (Γ.encodeParts r).typeName = r.typeName := by rw [encodeParts]

theorem fields_encodeParts (r : Record Value) :
    (Γ.encodeParts r).fields = r.fields.map fun e => (e.1, Γ.encode e.2) := by
  rw [encodeParts, encodeNamedValues_eq]

@[simp] theorem readers_eq (es : List Element) : Γ.readers es = es.map Γ.reader := by
  induction es with
  | nil => rfl
  | cons e es ih => rw [readers, ih, List.map_cons]

@[simp] theorem element_reader (e : Element) : (Γ.reader e).element = e := by
  cases e <;> rfl

@[simp] theorem children_reader (e : Element) :
    (Γ.reader e).children = e.children.map Γ.reader := by
  cases e with
  | nested => rw [reader, readers_eq]; rfl
  | _ => rfl

theorem keys_readers (es : List Element) :
    (es.map Γ.reader).map (·.element.key) = es.map (·.key) := by
  simp [Function.comp_def]

@[simp] theorem read_reader (e : Element) (d : Ty) : (Γ.reader e).read d = Γ.unpack e d := rfl

theorem unpack_eq (e : Element) (d : Ty) :
    Γ.unpack e d = Γ.decodeWith e (e.children.map Γ.reader) d := by
  cases e with
  | nested => rw [unpack, reader, readers_eq]; rfl
  | _ => rfl

variable {Γ}

theorem listWith_eq_ok {k : ListKind} {e : Element} {l : Container Reader} :
    e.listWith k (e.children.map Γ.reader) = .ok l ↔
      ∃ c, e.listOf k = .ok c ∧ l = Γ.readerList c := by
  simp only [Element.listWith, Checked.bind_eq_ok, Checked.pure_eq_ok]
  apply exists_congr
  intro c
  apply and_congr_right
  intro hc
  obtain ⟨-, he⟩ := Element.listOf_eq_ok.mp hc
  rw [he, eq_comm]
  rfl

theorem listWith_ofList (i : Key) (l : Container Element) :
    (Element.ofList i l).listWith l.kind ((Element.ofList i l).children.map Γ.reader) =
      .ok (Γ.readerList l) :=
  listWith_eq_ok.mpr ⟨l, Element.listOf_ofList i l, rfl⟩

theorem readerList_listOf {k : ListKind} {e : Element} {l : Container Reader} :
    (Γ.reader e).listOf k = .ok l ↔ ∃ c, e.listOf k = .ok c ∧ l = Γ.readerList c := by
  rw [Reader.listOf, element_reader, children_reader, listWith_eq_ok]

end Scope

end TypedWire
