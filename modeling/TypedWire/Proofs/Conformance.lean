import TypedWire.Proofs.Settled

namespace TypedWire

def Extent.Admits : Extent → Nat → Prop
  | .free, _ => True
  | .fixed m, n => n = m
  | .bounded m, n => n ≤ m

def AdmitsDims : Option (List UInt32) → List UInt32 → Prop
  | none, _ => True
  | some dims, found => dims = found

def Record.HasFields {α : Type} (r : Record α) (table : List Field) : Prop :=
  ∀ s, s ∈ r.fields.map (·.1) ↔ s ∈ table.map (·.name)

structure NamedType.Describes (d : NamedType) (r : NamedRecord) : Prop where
  typeName : r.typeName = d.typeName
  kind : r.array.kind = d.kind
  count : r.array.length = d.count

inductive Scope.Conforms (Γ : Scope) : Value → Ty → Prop
  | null {d} : d.Nullable → Γ.Conforms .null d
  | any {v} : v ≠ .null → Γ.Conforms v v.ty → Γ.Conforms v .any
  | scalar (s) : Γ.Conforms (.scalar s) (.scalar s.kind)
  | array {a len} : len.Admits a.length → Γ.Conforms (.array a) (.array a.kind len)
  | block {k b dims} : AdmitsDims dims b.dims → Γ.Conforms (.block k b) (.block k dims)
  | text (s) : Γ.Conforms (.text s) .text
  | enum (t n) : Γ.Conforms (.enum t n) (.enum t)
  | vector {es value} : (∀ e ∈ es, Γ.Conforms e.2 value) →
      Γ.Conforms (.vector es) (.map (.scalar .int32) value)
  | dictionary {es value} : (∀ e ∈ es, Γ.Conforms e.2 value) →
      Γ.Conforms (.dictionary es) (.map .text value)
  | list {vs item} : vs.length ≤ positionBound → (∀ v ∈ vs, Γ.Conforms v item) →
      Γ.Conforms (.list vs) (.list item)
  | struct {r s} : Γ.struct r.typeName = .ok s → r.HasFields s.fields →
      (∀ f ∈ s.fields, ∀ v, r.field? f.name = some v → Γ.Conforms v f.ty) →
      Γ.Conforms (.struct r) (.struct r.typeName)
  | pod {t r p} : Γ.pod t = .ok p → r.typeName = p.typeName → r.HasFields p.fields →
      (∀ f ∈ p.fields, ∀ v, r.field? f.name = some v → Γ.Conforms v f.ty) →
      Γ.Conforms (.pod r) (.pod t .single)
  | podArray {t rs p len} : Γ.pod t = .ok p → len.Admits rs.length → rs.length ≤ positionBound →
      (∀ r ∈ rs, r.typeName = p.typeName) → (∀ r ∈ rs, r.HasFields p.fields) →
      (∀ r ∈ rs, ∀ f ∈ p.fields, ∀ v, r.field? f.name = some v → Γ.Conforms v f.ty) →
      Γ.Conforms (.podArray t rs) (.pod t (.array len))
  | podBlock {t b p dims} : Γ.pod t = .ok p → AdmitsDims dims b.dims →
      b.items.length ≤ positionBound → (∀ r ∈ b.items, r.typeName = p.typeName) →
      (∀ r ∈ b.items, r.HasFields p.fields) →
      (∀ r ∈ b.items, ∀ f ∈ p.fields, ∀ v, r.field? f.name = some v → Γ.Conforms v f.ty) →
      Γ.Conforms (.podBlock t b) (.pod t (.block dims))
  | named {t r a} : Γ.named t = .ok a → a.Describes r → Γ.Conforms (.named r) (.named t .single)
  | namedArray {t rs a len} : Γ.named t = .ok a → len.Admits rs.length →
      (∀ r ∈ rs, a.Describes r) → Γ.Conforms (.namedArray t rs) (.named t (.array len))
  | namedBlock {t b a dims} : Γ.named t = .ok a → AdmitsDims dims b.dims →
      (∀ r ∈ b.items, a.Describes r) → Γ.Conforms (.namedBlock t b) (.named t (.block dims))

@[simp] theorem Extent.check_eq_ok {len : Extent} {n : Nat} :
    len.check n = .ok () ↔ len.Admits n := by
  cases len <;> simp [check, Admits]

@[simp] theorem expectDims_eq_ok {dims : Option (List UInt32)} {found : List UInt32} :
    expectDims dims found = .ok () ↔ AdmitsDims dims found := by
  cases dims <;> simp [expectDims, AdmitsDims]

theorem Ty.keyKind_eq_int32 {d : Ty} : d.keyKind = .ok .int32 ↔ d = .scalar .int32 := by
  unfold keyKind
  split <;> simp_all

theorem Ty.keyKind_eq_text {d : Ty} : d.keyKind = .ok .text ↔ d = .text := by
  unfold keyKind
  split <;> simp_all

theorem NamedType.describes_iff {d : NamedType} {r : NamedRecord} :
    d.Describes r ↔ d.expectRecord r = .ok () := by
  rw [expectRecord_eq_ok]
  exact ⟨fun h => ⟨h.typeName, h.kind, h.count⟩, fun ⟨ht, hk, hn⟩ => ⟨ht, hk, hn⟩⟩

namespace Scope

variable {Γ : Scope} {d : Ty} {v : Value}

theorem Conforms.of_orOwn (hv : v ≠ .null) (h : Γ.Conforms v (d.orOwn v)) : Γ.Conforms v d := by
  cases d with
  | any => exact .any hv h
  | _ => exact h

theorem exists_encodeFields {table : List Field} {r : Record Value} :
    (∃ es, encodeFields table (Γ.encodeParts r).fields = .ok es) ↔
      r.HasFields table ∧ ∀ f ∈ table, ∀ v, r.field? f.name = some v →
        ∃ e, Γ.encode v (.name f.name) f.ty = .ok e := by
  simp only [fields_encodeParts, encodeFields_eq_ok, exists_and_left]
  constructor
  · rintro ⟨hdecl, es, hall⟩
    have hfield : ∀ f ∈ table, ∃ v, r.field? f.name = some v ∧
        ∃ e, Γ.encode v (.name f.name) f.ty = .ok e := by
      intro f hf
      obtain ⟨e, -, enc, henc, he⟩ := exists_of_forall₂ hall f hf
      rw [Entries.get?_map, Option.map_eq_some_iff] at henc
      obtain ⟨v, hv, rfl⟩ := henc
      exact ⟨v, hv, e, he⟩
    refine ⟨fun s => ⟨fun hs => ?_, fun hs => ?_⟩, fun f hf v hv => ?_⟩
    · obtain ⟨c, hc, rfl⟩ := List.mem_map.mp hs
      exact hdecl _ (List.mem_map_of_mem hc)
    · obtain ⟨f, hf, rfl⟩ := List.mem_map.mp hs
      obtain ⟨v, hv, -⟩ := hfield f hf
      exact List.mem_map_of_mem (Entries.mem_of_get? hv)
    · obtain ⟨w, hw, he⟩ := hfield f hf
      rwa [Option.some.inj (hv.symm.trans hw)]
  · rintro ⟨hfields, hconf⟩
    constructor
    · intro e he
      obtain ⟨c, hc, rfl⟩ := List.mem_map.mp he
      exact (hfields c.1).mp (List.mem_map_of_mem hc)
    · apply exists_forall₂
      intro f hf
      cases hv : r.field? f.name with
      | none =>
        have hmem := (hfields f.name).mpr (List.mem_map_of_mem hf)
        exact absurd hmem (Entries.get?_eq_none_iff.mp hv)
      | some v =>
        obtain ⟨e, he⟩ := hconf f hf v hv
        exact ⟨e, Γ.encode v, by rw [Entries.get?_map, show Entries.get? _ _ = some v from hv]; rfl,
          he⟩

theorem exists_encodeRecord {t : String} {table : List Field} {r : Record Value} :
    (∃ l, encodeRecord t table (Γ.encodeParts r) = .ok l) ↔
      t = r.typeName ∧ t ≠ "" ∧ r.HasFields table ∧
        ∀ f ∈ table, ∀ v, r.field? f.name = some v →
          ∃ e, Γ.encode v (.name f.name) f.ty = .ok e := by
  simp only [encodeRecord_eq_ok, typeName_encodeParts, ← exists_encodeFields]
  constructor
  · rintro ⟨l, ht, hne, es, hes, -⟩
    exact ⟨ht, hne, es, hes⟩
  · rintro ⟨ht, hne, es, hes⟩
    exact ⟨_, ht, hne, es, hes, rfl⟩

theorem exists_encodeArray {p : PodType} (rs : List (Record Value)) :
    (∃ l, p.encodeArray (rs.map Γ.encodeParts) = .ok l) ↔
      p.typeName ≠ "" ∧ rs.length ≤ positionBound ∧ (∀ r ∈ rs, r.typeName = p.typeName) ∧
        (∀ r ∈ rs, r.HasFields p.fields) ∧
        ∀ r ∈ rs, ∀ f ∈ p.fields, ∀ v, r.field? f.name = some v →
          ∃ e, Γ.encode v (.name f.name) f.ty = .ok e := by
  constructor
  · rintro ⟨l, hl⟩
    obtain ⟨hne, es, hes, -⟩ := PodType.encodeArray_eq_ok.mp hl
    have hlen : rs.length ≤ positionBound := by
      simpa using length_of_packEachFrom (Nat.zero_le _) hes
    have hrec : ∀ r ∈ rs, ∃ l, p.encodeOne (Γ.encodeParts r) = .ok l := by
      intro r hr
      obtain ⟨i, e, he⟩ := packEachFrom_mem hes _ (List.mem_map_of_mem hr)
      simp only [Checked.bind_eq_ok] at he
      obtain ⟨l, hl, -⟩ := he
      exact ⟨l, hl⟩
    have hrec := fun r hr => exists_encodeRecord.mp (hrec r hr)
    exact ⟨hne, hlen, fun r hr => (hrec r hr).1.symm, fun r hr => (hrec r hr).2.2.1,
      fun r hr => (hrec r hr).2.2.2⟩
  · rintro ⟨hne, hlen, ht, hfields, hconf⟩
    apply PodType.exists_encodeArray hne hlen
    intro r hr
    exact exists_encodeRecord.mpr ⟨(ht r hr).symm, hne, hfields r hr, hconf r hr⟩

theorem conforms_of_encode {i : Key} {e : Element} (h : Γ.encode v i d = .ok e) :
    Γ.Conforms v d := by
  induction v generalizing i d e with
  | null =>
    obtain ⟨hd, -⟩ := encode_null.mp h
    exact .null hd
  | scalar s =>
    obtain ⟨hd, -⟩ := encode_scalar.mp h
    exact .of_orOwn nofun (hd ▸ .scalar s)
  | array a =>
    obtain ⟨len, hd, hlen, -⟩ := encode_array.mp h
    exact .of_orOwn nofun (hd ▸ .array (Extent.check_eq_ok.mp hlen))
  | block k b =>
    obtain ⟨dims, hd, hdims, -⟩ := encode_block.mp h
    exact .of_orOwn nofun (hd ▸ .block (expectDims_eq_ok.mp hdims))
  | text s =>
    obtain ⟨hd, -⟩ := encode_text.mp h
    exact .of_orOwn nofun (hd ▸ .text s)
  | enum t n =>
    obtain ⟨hd, -⟩ := encode_enum.mp h
    exact .of_orOwn nofun (hd ▸ .enum t n)
  | vector es ih =>
    obtain ⟨key, value, items, hd, hkey, hall, -⟩ := encode_vector.mp h
    obtain rfl := Ty.keyKind_eq_int32.mp hkey
    refine .of_orOwn nofun (hd ▸ .vector fun c hc => ?_)
    obtain ⟨x, -, hx⟩ := exists_of_forall₂ hall c hc
    exact ih c hc hx
  | dictionary es ih =>
    obtain ⟨key, value, items, hd, hkey, hall, -⟩ := encode_dictionary.mp h
    obtain rfl := Ty.keyKind_eq_text.mp hkey
    refine .of_orOwn nofun (hd ▸ .dictionary fun c hc => ?_)
    obtain ⟨x, -, hx⟩ := exists_of_forall₂ hall c hc
    exact ih c hc hx
  | list vs ih =>
    obtain ⟨item, items, hd, hpack, -⟩ := encode_list.mp h
    refine .of_orOwn nofun (hd ▸ .list ?_ fun v hv => ?_)
    · simpa using length_of_packEachFrom (Nat.zero_le _) hpack
    · obtain ⟨p, x, hx⟩ := packEachFrom_mem hpack v hv
      exact ih v hv hx
  | struct r ih =>
    obtain ⟨hd, s, hs, l, hl, -⟩ := encode_struct.mp h
    obtain ⟨-, -, hfields, hconf⟩ := exists_encodeRecord.mp ⟨l, hl⟩
    refine .of_orOwn nofun (hd ▸ .struct hs hfields fun f hf v hv => ?_)
    obtain ⟨x, hx⟩ := hconf f hf v hv
    exact ih _ (Entries.mem_of_get? hv) hx
  | pod r ih =>
    obtain ⟨t, hd, p, hp, l, hl, -⟩ := encode_pod.mp h
    obtain ⟨-, -, ht, hfields, hconf⟩ := (exists_encodeArray [r]).mp ⟨l, hl⟩
    rw [List.forall_mem_singleton] at ht hfields hconf
    refine .of_orOwn nofun (hd ▸ .pod hp ht hfields fun f hf v hv => ?_)
    obtain ⟨x, hx⟩ := hconf f hf v hv
    exact ih _ (Entries.mem_of_get? hv) hx
  | podArray t rs ih =>
    obtain ⟨len, hd, hlen, p, hp, l, hl, -⟩ := encode_podArray.mp h
    obtain ⟨-, hbound, ht, hfields, hconf⟩ := (exists_encodeArray rs).mp ⟨l, hl⟩
    refine .of_orOwn nofun (hd ▸ .podArray hp (Extent.check_eq_ok.mp hlen) hbound ht hfields
      fun r hr f hf v hv => ?_)
    obtain ⟨x, hx⟩ := hconf r hr f hf v hv
    exact ih r hr _ (Entries.mem_of_get? hv) hx
  | podBlock t dims rs ih =>
    obtain ⟨axes, hd, hdims, p, hp, l, hl, -⟩ := encode_podBlock.mp h
    obtain ⟨array, harray, -⟩ := PodType.encodeBlock_eq_ok.mp hl
    obtain ⟨-, hbound, ht, hfields, hconf⟩ := (exists_encodeArray rs).mp ⟨array, harray⟩
    refine .of_orOwn nofun (hd ▸ .podBlock hp (expectDims_eq_ok.mp hdims) hbound ht hfields
      fun r hr f hf v hv => ?_)
    obtain ⟨x, hx⟩ := hconf r hr f hf v hv
    exact ih r hr _ (Entries.mem_of_get? hv) hx
  | named r =>
    obtain ⟨t, hd, a, ha, l, hl, -⟩ := encode_named.mp h
    obtain ⟨-, hrs, -⟩ := NamedType.encodeArray_eq_ok.mp hl
    exact .of_orOwn nofun
      (hd ▸ .named ha (NamedType.describes_iff.mpr (hrs r List.mem_cons_self)))
  | namedArray t rs =>
    obtain ⟨len, hd, hlen, a, ha, l, hl, -⟩ := encode_namedArray.mp h
    obtain ⟨-, hrs, -⟩ := NamedType.encodeArray_eq_ok.mp hl
    exact .of_orOwn nofun (hd ▸ .namedArray ha (Extent.check_eq_ok.mp hlen)
      fun r hr => NamedType.describes_iff.mpr (hrs r hr))
  | namedBlock t b =>
    obtain ⟨axes, hd, hdims, a, ha, l, hl, -⟩ := encode_namedBlock.mp h
    obtain ⟨array, harray, -⟩ := NamedType.encodeBlock_eq_ok.mp hl
    obtain ⟨-, hrs, -⟩ := NamedType.encodeArray_eq_ok.mp harray
    exact .of_orOwn nofun (hd ▸ .namedBlock ha (expectDims_eq_ok.mp hdims)
      fun r hr => NamedType.describes_iff.mpr (hrs r hr))

theorem Conforms.exists_encode (hΓ : Γ.Built) (h : Γ.Conforms v d) (i : Key) :
    ∃ e, Γ.encode v i d = .ok e := by
  induction h generalizing i with
  | null hd => exact ⟨_, encode_null.mpr ⟨hd, rfl⟩⟩
  | any _ _ ih =>
    obtain ⟨e, he⟩ := ih i
    exact ⟨e, encode_any hΓ he⟩
  | scalar s => exact ⟨_, encode_scalar.mpr ⟨rfl, rfl⟩⟩
  | array hlen => exact ⟨_, encode_array.mpr ⟨_, rfl, Extent.check_eq_ok.mpr hlen, rfl⟩⟩
  | block hdims => exact ⟨_, encode_block.mpr ⟨_, rfl, expectDims_eq_ok.mpr hdims, rfl⟩⟩
  | text s => exact ⟨_, encode_text.mpr ⟨rfl, rfl⟩⟩
  | enum t n => exact ⟨_, encode_enum.mpr ⟨rfl, rfl⟩⟩
  | vector _ ih =>
    obtain ⟨items, hitems⟩ := exists_forall₂ fun c hc => ih c hc (.index c.1)
    exact ⟨_, encode_vector.mpr ⟨_, _, items, rfl, rfl, hitems, rfl⟩⟩
  | dictionary _ ih =>
    obtain ⟨items, hitems⟩ := exists_forall₂ fun c hc => ih c hc (.name c.1)
    exact ⟨_, encode_dictionary.mpr ⟨_, _, items, rfl, rfl, hitems, rfl⟩⟩
  | list hlen _ ih =>
    obtain ⟨items, hitems⟩ := exists_packEachFrom (n := 0)
      (fun v hv p => ih v hv (.index p)) (by simpa using hlen)
    exact ⟨_, encode_list.mpr ⟨_, items, rfl, hitems, rfl⟩⟩
  | struct hs hfields _ ih =>
    obtain ⟨l, hl⟩ := exists_encodeRecord.mpr ⟨(hΓ.struct hs).1, hΓ.struct_typeName_ne_empty hs,
      hfields, fun f hf v hv => ih f hf v hv _⟩
    exact ⟨_, encode_struct.mpr ⟨rfl, _, hs, l, hl, rfl⟩⟩
  | @pod t r p hp ht hfields _ ih =>
    obtain ⟨l, hl⟩ := (exists_encodeArray [r]).mpr ⟨hΓ.pod_typeName_ne_empty hp,
      by simp [positionBound], List.forall_mem_singleton.mpr ht,
      List.forall_mem_singleton.mpr hfields,
      List.forall_mem_singleton.mpr fun f hf v hv => ih f hf v hv _⟩
    exact ⟨_, encode_pod.mpr ⟨_, rfl, _, hp, l, hl, rfl⟩⟩
  | podArray hp hlen hbound ht hfields _ ih =>
    obtain ⟨l, hl⟩ := (exists_encodeArray _).mpr ⟨hΓ.pod_typeName_ne_empty hp, hbound, ht, hfields,
      fun r hr f hf v hv => ih r hr f hf v hv _⟩
    exact ⟨_, encode_podArray.mpr ⟨_, rfl, Extent.check_eq_ok.mpr hlen, _, hp, l, hl, rfl⟩⟩
  | podBlock hp hdims hbound ht hfields _ ih =>
    obtain ⟨array, harray⟩ := (exists_encodeArray _).mpr ⟨hΓ.pod_typeName_ne_empty hp, hbound, ht,
      hfields, fun r hr f hf v hv => ih r hr f hf v hv _⟩
    exact ⟨_, encode_podBlock.mpr ⟨_, rfl, expectDims_eq_ok.mpr hdims, _, hp, _,
      PodType.encodeBlock_eq_ok.mpr ⟨array, harray, rfl⟩, rfl⟩⟩
  | named ha hr =>
    obtain ⟨l, hl⟩ := NamedType.exists_encodeArray (hΓ.named_typeName_ne_empty ha)
      (List.forall_mem_singleton.mpr (NamedType.describes_iff.mp hr))
    exact ⟨_, encode_named.mpr ⟨_, rfl, _, ha, l, hl, rfl⟩⟩
  | namedArray ha hlen hrs =>
    obtain ⟨l, hl⟩ := NamedType.exists_encodeArray (hΓ.named_typeName_ne_empty ha)
      fun r hr => NamedType.describes_iff.mp (hrs r hr)
    exact ⟨_, encode_namedArray.mpr ⟨_, rfl, Extent.check_eq_ok.mpr hlen, _, ha, l, hl, rfl⟩⟩
  | namedBlock ha hdims hrs =>
    obtain ⟨array, harray⟩ := NamedType.exists_encodeArray (hΓ.named_typeName_ne_empty ha)
      fun r hr => NamedType.describes_iff.mp (hrs r hr)
    exact ⟨_, encode_namedBlock.mpr ⟨_, rfl, expectDims_eq_ok.mpr hdims, _, ha, _,
      NamedType.encodeBlock_eq_ok.mpr ⟨array, harray, rfl⟩, rfl⟩⟩

/-- Packing takes the values that conform to the type, and no others. -/
theorem pack_iff_conforms (hΓ : Γ.Built) (i : Key) (v : Value) (d : Ty) :
    (∃ e, Γ.pack i v d = .ok e) ↔ Γ.Conforms v d := by
  constructor
  · rintro ⟨e, he⟩
    exact conforms_of_encode he
  · intro h
    exact h.exists_encode hΓ i

theorem pack_iff_conforms_drive : ∃ e,
    Geo.scope.pack (.index 0) Geo.drive (.struct "geo.Track") = .ok e ∧
      Geo.scope.Conforms Geo.drive (.struct "geo.Track") :=
  ⟨_, rfl, (pack_iff_conforms Geo.scope_built (.index 0) Geo.drive (.struct "geo.Track")).mp
    ⟨_, rfl⟩⟩

end Scope

end TypedWire
