import TypedWire.Proofs.Children
import TypedWire.Proofs.Parts

namespace TypedWire

variable {α : Type}

namespace Container

@[simp] theorem make_eq_ok {kind : ListKind} {t : Option String} {items : List α}
    {l : Container α} : make kind t items = .ok l ↔
      (kind.NeedsTypeName → t.getD "" ≠ "") ∧ ⟨kind, t, items⟩ = l := by
  simp only [make, Checked.refuse_eq_ok, not_and, Except.ok.injEq, ne_eq]

end Container

@[simp] theorem typeError_ne_ok {d : Ty} {v : Value} {x : α} : typeError d v ≠ .ok x := nofun

@[simp] theorem refuse_ne_ok {d : Ty} {v : Value} {x : α} : refuse d v ≠ .ok x := by
  cases d <;> simp [refuse]

@[simp] theorem expectName_eq_ok {t u : String} : expectName t u = .ok () ↔ t = u := by
  simp [expectName]

@[simp] theorem expectKind_eq_ok {k l : NumericKind} : expectKind k l = .ok () ↔ k = l := by
  simp [expectKind]

theorem wrapBlock_eq_ok {kind : ListKind} {t : Option String} {dims : List UInt32}
    {array : Element} {l : Container Element} : wrapBlock kind t dims array = .ok l ↔
      (kind.NeedsTypeName → t.getD "" ≠ "") ∧
        ⟨kind, t, [.ofArray (.name dimsName) (dimsArray dims), array.withKey (.name arrayName)]⟩ =
          l := by
  rw [wrapBlock, Container.make_eq_ok]

theorem encodeFields_eq_ok {table : List Field} {fields : List (String × Encoder)}
    {es : List Element} : encodeFields table fields = .ok es ↔
      (∀ e ∈ fields, e.1 ∈ table.map (·.name)) ∧
        List.Forall₂ (fun f e => ∃ enc, Entries.get? f.name fields = some enc ∧
          enc (.name f.name) f.ty = .ok e) table es := by
  have hdecl : least? ((fields.map (·.1)).filter fun s => !table.any fun f => f.name = s) = none ↔
      ∀ e ∈ fields, e.1 ∈ table.map (·.name) := by
    simp [List.filter_eq_nil_iff]
  unfold encodeFields
  cases hl : least? _ with
  | some s =>
    constructor
    · intro h
      cases h
    · intro h
      rw [hdecl.mpr h.1] at hl
      cases hl
  | none =>
    rw [Checked.mapM_eq_ok, and_iff_right (hdecl.mp hl)]
    constructor
    · apply List.Forall₂.imp
      intro f e he
      cases hf : Entries.get? f.name fields with
      | none => rw [hf] at he; cases he
      | some enc => exact ⟨enc, rfl, by rw [hf] at he; exact he⟩
    · apply List.Forall₂.imp
      intro f e he
      obtain ⟨enc, hf, he⟩ := he
      rw [hf]
      exact he

theorem encodeRecord_eq_ok {t : String} {table : List Field} {r : Record Encoder}
    {l : Container Element} : encodeRecord t table r = .ok l ↔
      t = r.typeName ∧ t ≠ "" ∧
        ∃ es, encodeFields table r.fields = .ok es ∧ l = ⟨.struct, some t, es⟩ := by
  simp only [encodeRecord, Checked.bind_eq_ok, Checked.exists_unit, expectName_eq_ok,
    Container.make_eq_ok, ListKind.NeedsTypeName, true_imp_iff, Option.getD_some]
  constructor
  · rintro ⟨ht, es, hes, hne, rfl⟩
    exact ⟨ht, hne, es, hes, rfl⟩
  · rintro ⟨ht, hne, es, hes, rfl⟩
    exact ⟨ht, es, hes, hne, rfl⟩

namespace PodType

variable {d : PodType}

theorem encodeArray_eq_ok {rs : List (Record Encoder)} {l : Container Element} :
    d.encodeArray rs = .ok l ↔ d.typeName ≠ "" ∧
      ∃ es, packEach (fun i r => return .ofList (.index i) (← d.encodeOne r)) rs = .ok es ∧
        l = ⟨.podArray, some d.typeName, es⟩ := by
  simp only [encodeArray, Checked.bind_eq_ok, Container.make_eq_ok, ListKind.NeedsTypeName,
    true_imp_iff, Option.getD_some]
  constructor
  · rintro ⟨es, hes, hne, rfl⟩
    exact ⟨hne, es, hes, rfl⟩
  · rintro ⟨hne, es, hes, rfl⟩
    exact ⟨es, hes, hne, rfl⟩

theorem encodeBlock_eq_ok {b : Block (Record Encoder)} {l : Container Element} :
    d.encodeBlock b = .ok l ↔ ∃ array, d.encodeArray b.items = .ok array ∧
      l = ⟨.podBlock, some d.typeName,
        [.ofArray (.name dimsName) (dimsArray b.dims), .ofList (.name arrayName) array]⟩ := by
  simp only [encodeBlock, Checked.bind_eq_ok, wrapBlock_eq_ok]
  apply exists_congr
  intro array
  apply and_congr_right
  intro ha
  have hne : d.typeName ≠ "" := (encodeArray_eq_ok.mp ha).1
  simp [ListKind.NeedsTypeName, hne, Element.ofList, Element.withKey, eq_comm]

end PodType

namespace NamedType

variable {d : NamedType}

theorem expectRecord_eq_ok {r : NamedRecord} : d.expectRecord r = .ok () ↔
    r.typeName = d.typeName ∧ r.array.kind = d.kind ∧ r.array.length = d.count := by
  simp [expectRecord]

theorem encodeArray_eq_ok {rs : List NamedRecord} {l : Container Element} :
    d.encodeArray rs = .ok l ↔ d.typeName ≠ "" ∧ (∀ r ∈ rs, d.expectRecord r = .ok ()) ∧
      ∃ flat, Numbers.concat d.kind (rs.map (·.array)) = .ok flat ∧
        l = ⟨.namedArray, some d.typeName, [.ofArray (.name arrayName) flat]⟩ := by
  simp only [encodeArray, Checked.bind_eq_ok, Checked.exists_unit, Container.make_eq_ok,
    ListKind.NeedsTypeName, true_imp_iff, Option.getD_some]
  constructor
  · rintro ⟨hrs, flat, hflat, hne, rfl⟩
    exact ⟨hne, Checked.forM_eq_ok.mp hrs, flat, hflat, rfl⟩
  · rintro ⟨hne, hrs, flat, hflat, rfl⟩
    exact ⟨Checked.forM_eq_ok.mpr hrs, flat, hflat, hne, rfl⟩

theorem encodeBlock_eq_ok {b : Block NamedRecord} {l : Container Element} :
    d.encodeBlock b = .ok l ↔ ∃ array, d.encodeArray b.items = .ok array ∧
      l = ⟨.namedBlock, some d.typeName,
        [.ofArray (.name dimsName) (dimsArray b.dims), .ofList (.name arrayName) array]⟩ := by
  simp only [encodeBlock, Checked.bind_eq_ok, wrapBlock_eq_ok]
  apply exists_congr
  intro array
  apply and_congr_right
  intro ha
  have hne : d.typeName ≠ "" := (encodeArray_eq_ok.mp ha).1
  simp [ListKind.NeedsTypeName, hne, Element.ofList, Element.withKey, eq_comm]

end NamedType

namespace Ty

theorem orOwn_of_ne {d : Ty} (h : d ≠ .any) (v : Value) : d.orOwn v = d := by
  cases d <;> first | rfl | exact absurd rfl h

theorem eq_of_orOwn {d t : Ty} {v : Value} (hd : d ≠ .any) (h : d.orOwn v = t) : d = t := by
  rw [← h, orOwn_of_ne hd]

end Ty

-- Packing by its equations, one for each shape.
attribute [grind =] Scope.encode Scope.encodePods Scope.encodeNamed Ty.orOwn

namespace Scope

variable {Γ : Scope} {i : Key} {d : Ty} {e : Element}

theorem encode_null : Γ.encode .null i d = .ok e ↔ d.Nullable ∧ .void i = e := by
  simp [encode]

theorem encode_scalar {s : Scalar} : Γ.encode (.scalar s) i d = .ok e ↔
    d.orOwn (.scalar s) = .scalar s.kind ∧ .ofArray i s.toArray = e := by
  simp only [encode]
  cases d.orOwn (.scalar s) <;> simp

theorem encode_array {a : Numbers} : Γ.encode (.array a) i d = .ok e ↔
    ∃ len, d.orOwn (.array a) = .array a.kind len ∧ len.check a.length = .ok () ∧
      .ofArray i a = e := by
  simp only [encode]
  cases d.orOwn (.array a) <;> simp

theorem encode_block {k : NumericKind} {b : Block (Item k)} : Γ.encode (.block k b) i d = .ok e ↔
    ∃ dims, d.orOwn (.block k b) = .block k dims ∧ expectDims dims b.dims = .ok () ∧
      .nested i .block none [.ofArray (.name dimsName) (dimsArray b.dims),
        .ofArray (.name arrayName) ⟨k, b.items⟩] = e := by
  simp only [encode]
  cases d.orOwn (.block k b) <;>
    simp [wrapBlock_eq_ok, ListKind.NeedsTypeName, Element.ofList, Element.ofArray,
      Element.withKey]

theorem encode_text {s : String} : Γ.encode (.text s) i d = .ok e ↔
    d.orOwn (.text s) = .text ∧ .ofText i s = e := by
  simp only [encode]
  cases d.orOwn (.text s) <;> simp

theorem encode_enum {t : String} {n : Int32} : Γ.encode (.enum t n) i d = .ok e ↔
    d.orOwn (.enum t n) = .enum t ∧ .ofArray i ⟨.int32, [Item.ofInt32 n]⟩ = e := by
  simp only [encode]
  cases d.orOwn (.enum t n) <;> simp

theorem encode_vector {es : List (Int32 × Value)} : Γ.encode (.vector es) i d = .ok e ↔
    ∃ key value items, d.orOwn (.vector es) = .map key value ∧ key.keyKind = .ok .int32 ∧
      List.Forall₂ (fun c x => Γ.encode c.2 (.index c.1) value = .ok x) es items ∧
      .nested i .vector none items = e := by
  simp only [encode]
  cases d.orOwn (.vector es) with
  | map key value =>
    cases hk : key.keyKind with
    | error => simp [hk]
    | ok k => cases k <;> simp [hk, Checked.mapM_eq_ok, ListKind.NeedsTypeName, Element.ofList]
  | _ => simp

theorem encode_dictionary {es : List (String × Value)} : Γ.encode (.dictionary es) i d = .ok e ↔
    ∃ key value items, d.orOwn (.dictionary es) = .map key value ∧ key.keyKind = .ok .text ∧
      List.Forall₂ (fun c x => Γ.encode c.2 (.name c.1) value = .ok x) es items ∧
      .nested i .dictionary none items = e := by
  simp only [encode]
  cases d.orOwn (.dictionary es) with
  | map key value =>
    cases hk : key.keyKind with
    | error => simp [hk]
    | ok k => cases k <;> simp [hk, Checked.mapM_eq_ok, ListKind.NeedsTypeName, Element.ofList]
  | _ => simp

theorem encode_list {vs : List Value} : Γ.encode (.list vs) i d = .ok e ↔
    ∃ item items, d.orOwn (.list vs) = .list item ∧
      packEach (fun p v => Γ.encode v (.index p) item) vs = .ok items ∧
      .nested i .list none items = e := by
  simp only [encode, encodeValues_eq, packEach, packEachFrom_map]
  cases d.orOwn (.list vs) <;> simp [ListKind.NeedsTypeName, Element.ofList]

theorem encode_struct {r : Record Value} : Γ.encode (.struct r) i d = .ok e ↔
    d.orOwn (.struct r) = .struct r.typeName ∧ ∃ s, Γ.struct r.typeName = .ok s ∧
      ∃ l, s.encode (Γ.encodeParts r) = .ok l ∧ .ofList i l = e := by
  simp only [encode]
  cases d.orOwn (.struct r) with
  | struct t =>
    simp only [Checked.bind_eq_ok, Checked.exists_unit, expectName_eq_ok, Checked.pure_eq_ok,
      Ty.struct.injEq]
    apply and_congr_right
    intro ht
    subst ht
    simp
  | _ => simp

theorem encode_pod {r : Record Value} : Γ.encode (.pod r) i d = .ok e ↔
    ∃ t, d.orOwn (.pod r) = .pod t .single ∧ ∃ p, Γ.pod t = .ok p ∧
      ∃ l, p.encodeArray [Γ.encodeParts r] = .ok l ∧ .ofList i l = e := by
  simp only [encode]
  cases d.orOwn (.pod r) with
  | pod t shape => cases shape <;> simp [encodePods]
  | _ => simp [encodePods]

theorem encode_podArray {t : String} {rs : List (Record Value)} :
    Γ.encode (.podArray t rs) i d = .ok e ↔
      ∃ len, d.orOwn (.podArray t rs) = .pod t (.array len) ∧ len.check rs.length = .ok () ∧
        ∃ p, Γ.pod t = .ok p ∧
          ∃ l, p.encodeArray (rs.map Γ.encodeParts) = .ok l ∧ .ofList i l = e := by
  simp only [encode]
  cases d.orOwn (.podArray t rs) with
  | pod u shape =>
    cases shape with
    | array len =>
      by_cases hu : u = t
      · subst hu
        simp [encodePods]
      · simp [encodePods, hu]
    | _ => simp [encodePods]
  | _ => simp [encodePods]

theorem encode_podBlock {t : String} {dims : List UInt32} {rs : List (Record Value)} :
    Γ.encode (.podBlock t ⟨dims, rs⟩) i d = .ok e ↔
      ∃ axes, d.orOwn (.podBlock t ⟨dims, rs⟩) = .pod t (.block axes) ∧
        expectDims axes dims = .ok () ∧ ∃ p, Γ.pod t = .ok p ∧
          ∃ l, p.encodeBlock ⟨dims, rs.map Γ.encodeParts⟩ = .ok l ∧ .ofList i l = e := by
  simp only [encode]
  cases d.orOwn (.podBlock t ⟨dims, rs⟩) with
  | pod u shape =>
    cases shape with
    | block axes =>
      by_cases hu : u = t
      · subst hu
        simp [encodePods]
      · simp [encodePods, hu]
    | _ => simp [encodePods]
  | _ => simp [encodePods]

theorem encode_named {r : NamedRecord} : Γ.encode (.named r) i d = .ok e ↔
    ∃ t, d.orOwn (.named r) = .named t .single ∧ ∃ a, Γ.named t = .ok a ∧
      ∃ l, a.encodeArray [r] = .ok l ∧ .ofList i l = e := by
  simp only [encode]
  cases d.orOwn (.named r) with
  | named t shape => cases shape <;> simp [encodeNamed]
  | _ => simp [encodeNamed]

theorem encode_namedArray {t : String} {rs : List NamedRecord} :
    Γ.encode (.namedArray t rs) i d = .ok e ↔
      ∃ len, d.orOwn (.namedArray t rs) = .named t (.array len) ∧
        len.check rs.length = .ok () ∧ ∃ a, Γ.named t = .ok a ∧
          ∃ l, a.encodeArray rs = .ok l ∧ .ofList i l = e := by
  simp only [encode]
  cases d.orOwn (.namedArray t rs) with
  | named u shape =>
    cases shape with
    | array len =>
      by_cases hu : u = t
      · subst hu
        simp [encodeNamed]
      · simp [encodeNamed, hu]
    | _ => simp [encodeNamed]
  | _ => simp [encodeNamed]

theorem encode_namedBlock {t : String} {b : Block NamedRecord} :
    Γ.encode (.namedBlock t b) i d = .ok e ↔
      ∃ axes, d.orOwn (.namedBlock t b) = .named t (.block axes) ∧
        expectDims axes b.dims = .ok () ∧ ∃ a, Γ.named t = .ok a ∧
          ∃ l, a.encodeBlock b = .ok l ∧ .ofList i l = e := by
  simp only [encode]
  cases d.orOwn (.namedBlock t b) with
  | named u shape =>
    cases shape with
    | block axes =>
      by_cases hu : u = t
      · subst hu
        simp [encodeNamed]
      · simp [encodeNamed, hu]
    | _ => simp [encodeNamed]
  | _ => simp [encodeNamed]

theorem key_encode {v : Value} (h : Γ.encode v i d = .ok e) : e.key = i := by
  induction v with
  | null =>
    obtain ⟨-, rfl⟩ := encode_null.mp h
    rfl
  | scalar s =>
    obtain ⟨-, rfl⟩ := encode_scalar.mp h
    rfl
  | array a =>
    obtain ⟨_, -, -, rfl⟩ := encode_array.mp h
    rfl
  | block k b =>
    obtain ⟨_, -, -, rfl⟩ := encode_block.mp h
    rfl
  | text s =>
    obtain ⟨-, rfl⟩ := encode_text.mp h
    rfl
  | enum t n =>
    obtain ⟨-, rfl⟩ := encode_enum.mp h
    rfl
  | vector es =>
    obtain ⟨_, _, _, -, -, -, rfl⟩ := encode_vector.mp h
    rfl
  | dictionary es =>
    obtain ⟨_, _, _, -, -, -, rfl⟩ := encode_dictionary.mp h
    rfl
  | list vs =>
    obtain ⟨_, _, -, -, rfl⟩ := encode_list.mp h
    rfl
  | struct r =>
    obtain ⟨-, _, -, _, -, rfl⟩ := encode_struct.mp h
    rfl
  | pod r =>
    obtain ⟨_, -, _, -, _, -, rfl⟩ := encode_pod.mp h
    rfl
  | podArray t rs =>
    obtain ⟨_, -, -, _, -, _, -, rfl⟩ := encode_podArray.mp h
    rfl
  | podBlock t dims rs =>
    obtain ⟨_, -, -, _, -, _, -, rfl⟩ := encode_podBlock.mp h
    rfl
  | named r =>
    obtain ⟨_, -, _, -, _, -, rfl⟩ := encode_named.mp h
    rfl
  | namedArray t rs =>
    obtain ⟨_, -, -, _, -, _, -, rfl⟩ := encode_namedArray.mp h
    rfl
  | namedBlock t b =>
    obtain ⟨_, -, -, _, -, _, -, rfl⟩ := encode_namedBlock.mp h
    rfl

end Scope

end TypedWire
