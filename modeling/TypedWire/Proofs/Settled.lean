import TypedWire.Proofs.OpenPacking
import TypedWire.Proofs.RoundTrip

namespace TypedWire

namespace Scope

structure Settled (Γ : Scope) (d : Ty) (v : Value) : Prop where
  wellFormed : v.WellFormed
  normal_eq : Γ.normal v d = v
  packs : ∀ i, ∃ e, Γ.encode v i d = .ok e

structure Fills (Γ : Scope) (table : List Field) (r : Record Value) : Prop where
  sorted : Entries.Sorted r.fields
  declared : ∀ e ∈ r.fields, e.1 ∈ table.map (·.name)
  settled : ∀ f ∈ table, ∃ v, Entries.get? f.name r.fields = some v ∧ Γ.Settled f.ty v

variable {Γ : Scope} {d : Ty} {v : Value}

theorem Settled.exists_pack (hΓ : Γ.Built) (h : Γ.Settled d v) (i : Key) :
    ∃ e, Γ.pack i v d = .ok e ∧ Γ.unpack e d = .ok v := by
  obtain ⟨e, he⟩ := h.packs i
  refine ⟨e, he, ?_⟩
  rw [returns hΓ h.wellFormed i d e he, h.normal_eq]

theorem Settled.any (hΓ : Γ.Built) (h : Γ.Settled v.ty v) (hv : v.ty.Nullable) :
    Γ.Settled .any v where
  wellFormed := h.wellFormed
  normal_eq := (normal_any hv).trans h.normal_eq
  packs i := by
    obtain ⟨e, he⟩ := h.packs i
    exact ⟨e, encode_any hΓ he⟩

namespace Fills

variable {table : List Field} {r : Record Value}

theorem field (h : Γ.Fills table r) {f : Field} (hf : f ∈ table) {e : String × Value}
    (he : e ∈ r.fields) (hname : e.1 = f.name) : Γ.Settled f.ty e.2 := by
  obtain ⟨v, hv, hsettled⟩ := h.settled f hf
  rw [← hname, Entries.get?_of_mem h.sorted.nodup he, Option.some.injEq] at hv
  exact hv ▸ hsettled

theorem wellFormed (h : Γ.Fills table r) : Value.RecordWellFormed r := by
  refine Value.recordWellFormed_iff.mpr ⟨h.sorted, fun e he => ?_⟩
  obtain ⟨f, hf, hname⟩ := List.mem_map.mp (h.declared e he)
  exact (h.field hf he hname.symm).wellFormed

theorem normalFields_eq (h : Γ.Fills table r) : Γ.normalFields table r.fields = r.fields :=
  normalFields_eq_self fun _ hf _ he hname => (h.field hf he hname).normal_eq

theorem exists_encodeRecord (h : Γ.Fills table r) (hne : r.typeName ≠ "") :
    ∃ l, encodeRecord r.typeName table (Γ.encodeParts r) = .ok l := by
  obtain ⟨es, hes⟩ : ∃ es, encodeFields table (Γ.encodeParts r).fields = .ok es := by
    simp only [fields_encodeParts, encodeFields_eq_ok]
    rw [exists_and_left]
    constructor
    · intro e he
      obtain ⟨c, hc, rfl⟩ := List.mem_map.mp he
      exact h.declared c hc
    · apply exists_forall₂
      intro f hf
      obtain ⟨v, hv, hsettled⟩ := h.settled f hf
      obtain ⟨e, he⟩ := hsettled.packs (.name f.name)
      exact ⟨e, Γ.encode v, by rw [Entries.get?_map, hv]; rfl, he⟩
  exact ⟨_, encodeRecord_eq_ok.mpr ⟨(typeName_encodeParts Γ r).symm, hne, es, hes, rfl⟩⟩

end Fills

end Scope

def PodType.Accepts (p : PodType) (Γ : Scope) (r : Record Value) : Prop :=
  Value.RecordWellFormed r ∧ ∃ l, p.encodeOne (Γ.encodeParts r) = .ok l

theorem Geo.point_accepts (x y : Int16) : point.Accepts scope (pointAt x y) := by
  refine ⟨?_, _, rfl⟩
  simp only [pointAt, Value.RecordWellFormed, Value.FieldsWellFormed, Value.WellFormed, and_true]
  exact List.pairwise_pair.mpr (by decide : "x" < "y")

theorem PodType.exists_encodeArray {Γ : Scope} {p : PodType} (hp : p.typeName ≠ "")
    {rs : List (Record Value)} (hlen : rs.length ≤ positionBound)
    (hrs : ∀ r ∈ rs, ∃ l, p.encodeOne (Γ.encodeParts r) = .ok l) :
    ∃ l, p.encodeArray (rs.map Γ.encodeParts) = .ok l := by
  obtain ⟨es, hes⟩ : ∃ es, packEach (fun i r => return .ofList (.index i) (← p.encodeOne r))
      (rs.map Γ.encodeParts) = .ok es := by
    apply exists_packEachFrom _ (by simpa using hlen)
    intro x hx i
    obtain ⟨r, hr, rfl⟩ := List.mem_map.mp hx
    obtain ⟨l, hl⟩ := hrs r hr
    exact ⟨.ofList (.index i) l, by rw [hl]; rfl⟩
  exact ⟨_, encodeArray_eq_ok.mpr ⟨hp, es, hes, rfl⟩⟩

theorem NamedType.exists_encodeArray {a : NamedType} (ha : a.typeName ≠ "")
    {rs : List NamedRecord} (hrs : ∀ r ∈ rs, a.expectRecord r = .ok ()) :
    ∃ l, a.encodeArray rs = .ok l := by
  obtain ⟨flat, hflat⟩ : ∃ flat, Numbers.concat a.kind (rs.map (·.array)) = .ok flat := by
    apply Numbers.exists_concat
    intro part hpart
    obtain ⟨r, hr, rfl⟩ := List.mem_map.mp hpart
    exact (expectRecord_eq_ok.mp (hrs r hr)).2.1
  exact ⟨_, encodeArray_eq_ok.mpr ⟨ha, hrs, flat, hflat, rfl⟩⟩

namespace Scope

variable {Γ : Scope} {d : Ty} {v : Value}

section Shapes

theorem settled_null (hd : d.Nullable) : Γ.Settled d .null where
  wellFormed := trivial
  normal_eq := by cases d <;> rfl
  packs _ := ⟨_, encode_null.mpr ⟨hd, rfl⟩⟩

theorem settled_scalar (s : Scalar) : Γ.Settled (.scalar s.kind) (.scalar s) where
  wellFormed := trivial
  normal_eq := rfl
  packs _ := ⟨_, encode_scalar.mpr ⟨rfl, rfl⟩⟩

theorem settled_array {a : Numbers} {len : Extent} (hlen : len.check a.length = .ok ()) :
    Γ.Settled (.array a.kind len) (.array a) where
  wellFormed := trivial
  normal_eq := rfl
  packs _ := ⟨_, encode_array.mpr ⟨len, rfl, hlen, rfl⟩⟩

theorem settled_block {k : NumericKind} {b : Block (Item k)} (hb : b.WellFormed)
    {dims : Option (List UInt32)} (hdims : expectDims dims b.dims = .ok ()) :
    Γ.Settled (.block k dims) (.block k b) where
  wellFormed := hb
  normal_eq := rfl
  packs _ := ⟨_, encode_block.mpr ⟨dims, rfl, hdims, rfl⟩⟩

theorem settled_text (s : String) : Γ.Settled .text (.text s) where
  wellFormed := trivial
  normal_eq := rfl
  packs _ := ⟨_, encode_text.mpr ⟨rfl, rfl⟩⟩

theorem settled_enum (t : String) (n : Int32) : Γ.Settled (.enum t) (.enum t n) where
  wellFormed := trivial
  normal_eq := rfl
  packs _ := ⟨_, encode_enum.mpr ⟨rfl, rfl⟩⟩

theorem settled_vector {key value : Ty} (hkey : key.keyKind = .ok .int32)
    {es : List (Int32 × Value)} (hs : Entries.Sorted es)
    (hes : ∀ e ∈ es, Γ.Settled value e.2) : Γ.Settled (.map key value) (.vector es) where
  wellFormed := ⟨hs, Value.vectorWellFormed_iff.mpr fun e he => (hes e he).wellFormed⟩
  normal_eq := by
    rw [normal_vector rfl, (List.map_congr_left fun e he => ?_).trans (List.map_id es)]
    exact Prod.ext rfl (hes e he).normal_eq
  packs _ := by
    obtain ⟨items, hitems⟩ := exists_forall₂ fun e he => (hes e he).packs (.index e.1)
    exact ⟨_, encode_vector.mpr ⟨key, value, items, rfl, hkey, hitems, rfl⟩⟩

theorem settled_dictionary {key value : Ty} (hkey : key.keyKind = .ok .text)
    {es : List (String × Value)} (hs : Entries.Sorted es)
    (hes : ∀ e ∈ es, Γ.Settled value e.2) : Γ.Settled (.map key value) (.dictionary es) where
  wellFormed := ⟨hs, Value.fieldsWellFormed_iff.mpr fun e he => (hes e he).wellFormed⟩
  normal_eq := by
    rw [normal_dictionary rfl, (List.map_congr_left fun e he => ?_).trans (List.map_id es)]
    exact Prod.ext rfl (hes e he).normal_eq
  packs _ := by
    obtain ⟨items, hitems⟩ := exists_forall₂ fun e he => (hes e he).packs (.name e.1)
    exact ⟨_, encode_dictionary.mpr ⟨key, value, items, rfl, hkey, hitems, rfl⟩⟩

theorem settled_list {item : Ty} {vs : List Value} (hlen : vs.length ≤ positionBound)
    (hvs : ∀ v ∈ vs, Γ.Settled item v) : Γ.Settled (.list item) (.list vs) where
  wellFormed := Value.listWellFormed_iff.mpr fun v hv => (hvs v hv).wellFormed
  normal_eq := by
    rw [normal_list rfl, (List.map_congr_left fun v hv => ?_).trans (List.map_id vs)]
    exact (hvs v hv).normal_eq
  packs _ := by
    obtain ⟨items, hitems⟩ := exists_packEachFrom
      (fun v hv p => (hvs v hv).packs (.index p)) (by rwa [Nat.zero_add])
    exact ⟨_, encode_list.mpr ⟨item, items, rfl, hitems, rfl⟩⟩

theorem settled_struct (hΓ : Γ.Built) {s : StructType} (hs : Γ.struct s.typeName = .ok s)
    {r : Record Value} (hr : r.typeName = s.typeName) (hfills : Γ.Fills s.fields r) :
    Γ.Settled (.struct s.typeName) (.struct r) where
  wellFormed := hfills.wellFormed
  normal_eq := by
    rw [← hr] at hs ⊢
    rw [normal_struct rfl hs, hfills.normalFields_eq]
  packs _ := by
    have hne : r.typeName ≠ "" := hr ▸ hΓ.struct_typeName_ne_empty hs
    obtain ⟨l, hl⟩ := hfills.exists_encodeRecord hne
    rw [← hr] at hs ⊢
    refine ⟨_, encode_struct.mpr ⟨rfl, s, hs, l, ?_, rfl⟩⟩
    rw [StructType.encode, ← hr]
    exact hl

variable {t : String} {p : PodType} {a : NamedType}

theorem settled_pod (hΓ : Γ.Built) (hp : Γ.pod t = .ok p) {r : Record Value}
    (hr : p.Accepts Γ r) : Γ.Settled (.pod t .single) (.pod r) where
  wellFormed := hr.1
  normal_eq := rfl
  packs _ := by
    have hlen : [r].length ≤ positionBound := show 1 ≤ positionBound by decide
    obtain ⟨l, hl⟩ := PodType.exists_encodeArray (hΓ.pod_typeName_ne_empty hp) hlen
      (List.forall_mem_singleton.mpr hr.2)
    exact ⟨_, encode_pod.mpr ⟨t, rfl, p, hp, l, hl, rfl⟩⟩

theorem settled_podArray (hΓ : Γ.Built) (hp : Γ.pod t = .ok p) {rs : List (Record Value)}
    {len : Extent} (hcheck : len.check rs.length = .ok ()) (hlen : rs.length ≤ positionBound)
    (hrs : ∀ r ∈ rs, p.Accepts Γ r) : Γ.Settled (.pod t (.array len)) (.podArray t rs) where
  wellFormed := Value.recordsWellFormed_iff.mpr fun r hr => (hrs r hr).1
  normal_eq := rfl
  packs _ := by
    obtain ⟨l, hl⟩ := PodType.exists_encodeArray (hΓ.pod_typeName_ne_empty hp) hlen
      fun r hr => (hrs r hr).2
    exact ⟨_, encode_podArray.mpr ⟨len, rfl, hcheck, p, hp, l, hl, rfl⟩⟩

theorem settled_podBlock (hΓ : Γ.Built) (hp : Γ.pod t = .ok p) {b : Block (Record Value)}
    (hb : b.WellFormed) {dims : Option (List UInt32)} (hdims : expectDims dims b.dims = .ok ())
    (hlen : b.items.length ≤ positionBound) (hrs : ∀ r ∈ b.items, p.Accepts Γ r) :
    Γ.Settled (.pod t (.block dims)) (.podBlock t b) where
  wellFormed := ⟨hb, Value.recordsWellFormed_iff.mpr fun r hr => (hrs r hr).1⟩
  normal_eq := rfl
  packs _ := by
    obtain ⟨array, harray⟩ := PodType.exists_encodeArray (hΓ.pod_typeName_ne_empty hp) hlen
      fun r hr => (hrs r hr).2
    exact ⟨_, encode_podBlock.mpr ⟨dims, rfl, hdims, p, hp, _,
      PodType.encodeBlock_eq_ok.mpr ⟨array, harray, rfl⟩, rfl⟩⟩

theorem settled_named (hΓ : Γ.Built) (ha : Γ.named t = .ok a) {r : NamedRecord}
    (hr : a.expectRecord r = .ok ()) : Γ.Settled (.named t .single) (.named r) where
  wellFormed := trivial
  normal_eq := rfl
  packs _ := by
    obtain ⟨l, hl⟩ := NamedType.exists_encodeArray (hΓ.named_typeName_ne_empty ha)
      (List.forall_mem_singleton.mpr hr)
    exact ⟨_, encode_named.mpr ⟨t, rfl, a, ha, l, hl, rfl⟩⟩

theorem settled_namedArray (hΓ : Γ.Built) (ha : Γ.named t = .ok a) {rs : List NamedRecord}
    {len : Extent} (hcheck : len.check rs.length = .ok ())
    (hrs : ∀ r ∈ rs, a.expectRecord r = .ok ()) :
    Γ.Settled (.named t (.array len)) (.namedArray t rs) where
  wellFormed := trivial
  normal_eq := rfl
  packs _ := by
    obtain ⟨l, hl⟩ := NamedType.exists_encodeArray (hΓ.named_typeName_ne_empty ha) hrs
    exact ⟨_, encode_namedArray.mpr ⟨len, rfl, hcheck, a, ha, l, hl, rfl⟩⟩

theorem settled_namedBlock (hΓ : Γ.Built) (ha : Γ.named t = .ok a) {b : Block NamedRecord}
    (hb : b.WellFormed) {dims : Option (List UInt32)} (hdims : expectDims dims b.dims = .ok ())
    (hrs : ∀ r ∈ b.items, a.expectRecord r = .ok ()) :
    Γ.Settled (.named t (.block dims)) (.namedBlock t b) where
  wellFormed := hb
  normal_eq := rfl
  packs _ := by
    obtain ⟨array, harray⟩ := NamedType.exists_encodeArray (hΓ.named_typeName_ne_empty ha) hrs
    exact ⟨_, encode_namedBlock.mpr ⟨dims, rfl, hdims, a, ha, _,
      NamedType.encodeBlock_eq_ok.mpr ⟨array, harray, rfl⟩, rfl⟩⟩

end Shapes

end Scope

end TypedWire
