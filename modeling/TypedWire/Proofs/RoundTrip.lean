import TypedWire.Proofs.NormalForm
import TypedWire.Proofs.OpenUnpacking

namespace TypedWire

def Ty.Closed : Ty → Prop
  | .any => False
  | .map key value => key.Closed ∧ value.Closed
  | .list item => item.Closed
  | _ => True

theorem Ty.InPod.closed {d : Ty} (h : d.InPod) : d.Closed := by
  cases d <;> trivial

namespace Scope

/-- Types of `P` are not open, and neither is anything that a value of one of them holds. -/
structure Concrete (Γ : Scope) (P : Ty → Prop) : Prop where
  ne_any : ∀ {d}, P d → d ≠ .any
  value : ∀ {key value}, P (.map key value) → P value
  item : ∀ {item}, P (.list item) → P item
  struct : ∀ {t s}, P (.struct t) → Γ.struct t = .ok s → ∀ f ∈ s.fields, P f.ty
  pod : ∀ {t shape p}, P (.pod t shape) → Γ.pod t = .ok p → ∀ f ∈ p.fields, P f.ty

variable {Γ : Scope} {P : Ty → Prop}

theorem Built.concrete_inPod (hΓ : Γ.Built) : Γ.Concrete Ty.InPod where
  ne_any := by
    rintro _ h rfl
    exact h
  value h := h.elim
  item h := h.elim
  struct h := h.elim
  pod _ hp := (hΓ.pod hp).2.inPod

theorem Built.concrete_closed (hΓ : Γ.Built)
    (hs : ∀ t s, Γ.struct t = .ok s → ∀ f ∈ s.fields, f.ty.Closed) : Γ.Concrete Ty.Closed where
  ne_any := by
    rintro _ h rfl
    exact h
  value h := h.2
  item h := h
  struct _ h := hs _ _ h
  pod _ hp f hf := ((hΓ.pod hp).2.inPod f hf).closed

theorem Concrete.normal_eq (hP : Γ.Concrete P) (v : Value) {d : Ty} (hd : P d) :
    Γ.normal v d = v := by
  induction v generalizing d with
  | vector es ih =>
    cases d with
    | any => exact absurd rfl (hP.ne_any hd)
    | map key value =>
      rw [normal_vector rfl, (List.map_congr_left fun e he => ?_).trans (List.map_id es)]
      exact Prod.ext rfl (ih e he (hP.value hd))
    | _ => rfl
  | dictionary es ih =>
    cases d with
    | any => exact absurd rfl (hP.ne_any hd)
    | map key value =>
      rw [normal_dictionary rfl, (List.map_congr_left fun e he => ?_).trans (List.map_id es)]
      exact Prod.ext rfl (ih e he (hP.value hd))
    | _ => rfl
  | list vs ih =>
    cases d with
    | any => exact absurd rfl (hP.ne_any hd)
    | list item =>
      rw [normal_list rfl, (List.map_congr_left fun v hv => ?_).trans (List.map_id vs)]
      exact ih v hv (hP.item hd)
    | _ => rfl
  | struct r ih =>
    cases d with
    | any => exact absurd rfl (hP.ne_any hd)
    | struct t =>
      rcases r with ⟨u, fields⟩
      simp only [normal, normalRecord]
      cases hs : Γ.struct t with
      | error e => rfl
      | ok s =>
        simp only [normalFields_eq_self fun f hf e he _ => ih e he (hP.struct hd hs f hf)]
    | _ => rfl
  | _ => cases d <;> first | rfl | exact absurd rfl (hP.ne_any hd)

def Returns (Γ : Scope) (v : Value) : Prop :=
  ∀ i d e, Γ.encode v i d = .ok e → Γ.unpack e d = .ok (Γ.normal v d)

section Records

variable {r : Record Value} {t : String} {table : List Field} {l : Container Element}

theorem decodeRecord_encodeRecord (hd : (table.map (·.name)).Nodup)
    (hs : Entries.Sorted r.fields) (hr : r.Every Γ.Returns) (what : String)
    (h : encodeRecord t table (Γ.encodeParts r) = .ok l) :
    decodeRecord what t table (Γ.readerList l) =
      .ok ⟨r.typeName, Γ.normalFields table r.fields⟩ := by
  obtain ⟨hname, -, es, hes, rfl⟩ := encodeRecord_eq_ok.mp h
  obtain ⟨hdecl, hall⟩ := encodeFields_eq_ok.mp hes
  rw [fields_encodeParts] at hdecl hall
  have hread : List.Forall₂ (fun f e => e.key = .name f.name ∧
      ∃ v, Entries.get? f.name (Γ.normalFields table r.fields) = some v ∧
        Γ.unpack e f.ty = .ok v) table es := by
    apply forall₂_imp_mem hall
    rintro f hf e ⟨enc, henc, he⟩
    rw [Entries.get?_map, Option.map_eq_some_iff] at henc
    obtain ⟨v, hv, rfl⟩ := henc
    refine ⟨key_encode he, Γ.normal v f.ty, ?_, hr _ (Entries.mem_of_get? hv) _ _ _ he⟩
    rw [get?_normalFields hd hf, hv]
    rfl
  obtain ⟨entries, fields, hlist, hnames, hfields, hfnames, hget⟩ := decodeFields_listed hd hread
  have hc : NamedChildren.ofList (es.map fun e => (e.key, Γ.reader e)) = .ok ⟨entries⟩ :=
    NamedChildren.ofList_eq_ok.mpr ⟨hlist, hnames ▸ hd⟩
  have hof : Entries.ofList fields = Γ.normalFields table r.fields := by
    apply Entries.ofList_eq (sorted_normalFields hs table) hget
    intro e he
    rw [normalFields_eq] at he
    obtain ⟨x, hx, rfl⟩ := List.mem_map.mp he
    rw [hfnames]
    exact hdecl (x.1, Γ.encode x.2) (List.mem_map_of_mem hx)
  simp only [decodeRecord, Checked.bind_eq_ok, Checked.exists_unit, Container.expectKind_eq_ok,
    Container.expectType_eq_ok, Prod.exists, Checked.pure_eq_ok, readerList, Container.map,
    List.map_map, Function.comp_def, element_reader]
  refine ⟨trivial, trivial, _, hc, fields, ⟨[]⟩, hfields, by simp, ?_⟩
  rw [hof, hname, typeName_encodeParts]

end Records

end Scope

namespace PodType

variable {Γ : Scope} {p : PodType}

theorem decodeArray_encodeArray (hΓ : Γ.Built) (hp : p.Built) {rs : List (Record Value)}
    (hs : ∀ r ∈ rs, Entries.Sorted r.fields) (hr : ∀ r ∈ rs, r.Every Γ.Returns)
    {l : Container Element} (h : p.encodeArray (rs.map Γ.encodeParts) = .ok l) :
    p.decodeArray (Γ.readerList l) = .ok rs := by
  obtain ⟨-, es, hes, rfl⟩ := encodeArray_eq_ok.mp h
  rw [packEach, packEachFrom_map] at hes
  obtain ⟨hpos, hall⟩ := packEachFrom_positions (by
    intro i r e he
    simp only [Checked.bind_eq_ok, Checked.pure_eq_ok] at he
    obtain ⟨_, -, rfl⟩ := he
    rfl) hes
  simp only [decodeArray, Checked.bind_eq_ok, Checked.exists_unit, Container.expectKind_eq_ok,
    Container.expectType_eq_ok, Scope.readerList, Container.map, List.map_map, Function.comp_def,
    Scope.element_reader, List.mapM_map, Checked.mapM_eq_ok]
  refine ⟨trivial, trivial, hpos, List.Forall₂.flip ?_⟩
  apply forall₂_imp_mem hall
  rintro r hmem e ⟨i, he⟩
  simp only [Checked.bind_eq_ok, Checked.pure_eq_ok] at he
  obtain ⟨one, hone, rfl⟩ := he
  obtain ⟨_, _, fs, _, rfl⟩ := encodeRecord_eq_ok.mp hone
  -- The fields of a pod are of concrete types.
  have hnormal : Γ.normalFields p.fields r.fields = r.fields :=
    Scope.normalFields_eq_self fun f hf _ _ _ => hΓ.concrete_inPod.normal_eq _ (hp.inPod f hf)
  refine ⟨_, Scope.readerList_listOf.mpr ⟨_, Element.listOf_ofList .., rfl⟩, ?_⟩
  refine (Scope.decodeRecord_encodeRecord hp.distinct (hs r hmem) (hr r hmem) _ hone).trans ?_
  rw [hnormal]

theorem decodeBlock_encodeBlock (hΓ : Γ.Built) (hp : p.Built) {b : Block (Record Value)}
    (hb : b.WellFormed) (hs : ∀ r ∈ b.items, Entries.Sorted r.fields)
    (hr : ∀ r ∈ b.items, r.Every Γ.Returns) {l : Container Element}
    (h : p.encodeBlock ⟨b.dims, b.items.map Γ.encodeParts⟩ = .ok l) :
    p.decodeBlock (Γ.readerList l) = .ok b := by
  obtain ⟨array, ha, rfl⟩ := encodeBlock_eq_ok.mp h
  simp only [decodeBlock, Checked.bind_eq_ok, Checked.exists_unit, Container.expectKind_eq_ok,
    Container.expectType_eq_ok, Prod.exists, Scope.readerList, Container.map]
  refine ⟨trivial, trivial, b.dims, _, unwrapBlock_pair (by rw [Scope.element_reader])
    (by rw [Scope.element_reader]; rfl), _, Scope.readerList_listOf.mpr ⟨array, ?_, rfl⟩, b.items,
    decodeArray_encodeArray hΓ hp hs hr ha, Block.make_eq_ok_iff.mpr ⟨rfl, hb⟩⟩
  obtain ⟨-, es, -, rfl⟩ := encodeArray_eq_ok.mp ha
  rfl

end PodType

namespace Scope

variable {Γ : Scope} {P : Ty → Prop}

theorem returns_null : Γ.Returns .null := by
  intro i d e h
  obtain ⟨hd, rfl⟩ := encode_null.mp h
  exact unpack_void i hd

theorem unpackAny_ofArray (i : Key) (a : Numbers) :
    Γ.unpack (.ofArray i a) .any = .ok (.array a) := by
  rw [unpack_own (v := .array a) (by simp) rfl]
  simp only [Ty.orOwn, Value.ty, decodeAs, Checked.bind_eq_ok, Checked.exists_unit,
    Checked.pure_eq_ok]
  exact ⟨a, Element.arrayOf_ofArray .., rfl, rfl⟩

theorem returns_scalar (s : Scalar) : Γ.Returns (.scalar s) := by
  intro i d e h
  obtain ⟨hown, rfl⟩ := encode_scalar.mp h
  by_cases hd : d = .any
  · subst hd
    exact unpackAny_ofArray i s.toArray
  · obtain rfl := Ty.eq_of_orOwn hd hown
    rw [unpack_of_ne hd (by simp)]
    simp only [decodeAs, Checked.bind_eq_ok, Checked.pure_eq_ok]
    exact ⟨s.toArray, Element.arrayOf_ofArray .., s, Scalar.ofArray_toArray s, rfl⟩

theorem returns_array (a : Numbers) : Γ.Returns (.array a) := by
  intro i d e h
  obtain ⟨len, hown, hlen, rfl⟩ := encode_array.mp h
  rw [unpack_own (v := .array a) (by simp) rfl, hown]
  simp only [decodeAs, normal, Checked.bind_eq_ok, Checked.exists_unit, Checked.pure_eq_ok]
  exact ⟨a, Element.arrayOf_ofArray .., hlen, rfl⟩

theorem returns_block {k : NumericKind} {b : Block (Item k)} (hb : b.WellFormed) :
    Γ.Returns (.block k b) := by
  intro i d e h
  obtain ⟨dims, hown, hdims, rfl⟩ := encode_block.mp h
  rw [unpack_own (v := .block k b) (by simp) rfl, hown]
  simp only [decodeAs, normal, Checked.bind_eq_ok, Checked.exists_unit, Checked.pure_eq_ok,
    Prod.exists]
  exact ⟨⟨.block, none, _⟩, rfl, b.dims, _, unwrapBlock_pair rfl rfl, hdims, _,
    Element.arrayOf_ofArray .., b.items, Numbers.itemsOf_eq_ok.mpr rfl, b,
    Block.make_eq_ok_iff.mpr ⟨rfl, hb⟩, rfl⟩

theorem returns_text (s : String) : Γ.Returns (.text s) := by
  intro i d e h
  obtain ⟨hown, rfl⟩ := encode_text.mp h
  rw [unpack_own (v := .text s) (by simp) rfl, hown]
  simp only [decodeAs, normal, Checked.bind_eq_ok, Checked.pure_eq_ok]
  exact ⟨s, Element.text_ofText i s, rfl⟩

theorem returns_enum (t : String) (n : Int32) : Γ.Returns (.enum t n) := by
  intro i d e h
  obtain ⟨hown, rfl⟩ := encode_enum.mp h
  by_cases hd : d = .any
  · subst hd
    exact unpackAny_ofArray i _
  · obtain rfl := Ty.eq_of_orOwn hd hown
    rw [unpack_of_ne hd (by simp)]
    simp only [decodeAs, normal, Checked.bind_eq_ok, Checked.pure_eq_ok]
    refine ⟨_, Element.arrayOf_ofArray .., ⟨.int32, Item.ofInt32 n⟩, rfl, Item.ofInt32 n,
      Scalar.itemOf_eq_ok.mpr rfl, ?_⟩
    rw [Item.toInt32_ofInt32]

theorem decodeEntries_encode {κ : Type} [DecidableEq κ] [LT κ] [DecidableLT κ] [LE κ]
    [Std.LawfulOrderLT κ] (ofKey : κ → Key) {key : Key → Checked κ} {text : κ → String} {value : Ty}
    {es : List (κ × Value)} {items : List Element} (hkey : ∀ k, key (ofKey k) = .ok k)
    (hs : Entries.Sorted es) (hes : ∀ c ∈ es, Γ.Returns c.2)
    (h : List.Forall₂ (fun c x => Γ.encode c.2 (ofKey c.1) value = .ok x) es items) :
    decodeEntries key text value [] (items.map Γ.reader) =
      .ok (es.map fun c => (c.1, Γ.normal c.2 value)) := by
  rw [← List.nil_append (es.map _)]
  apply decodeEntries_sorted
  · exact hs.mapEntries fun _ v => Γ.normal v value
  · rw [List.forall₂_map_left_iff]
    apply forall₂_imp_mem h
    intro c hc x hx
    rw [key_encode hx]
    exact ⟨hkey c.1, hes c hc _ _ _ hx⟩

theorem returns_vector {es : List (Int32 × Value)} (hs : Entries.Sorted es)
    (hes : ∀ c ∈ es, Γ.Returns c.2) : Γ.Returns (.vector es) := by
  intro i d e h
  obtain ⟨key, value, items, hown, hk, hall, rfl⟩ := encode_vector.mp h
  rw [unpack_own (v := .vector es) (by simp) rfl, hown, normal_vector hown]
  simp only [decodeAs, hk, Checked.bind_eq_ok]
  refine ⟨_, rfl, ?_⟩
  simp only [Checked.bind_eq_ok, Checked.pure_eq_ok]
  exact ⟨_, listWith_eq_ok.mpr ⟨⟨.vector, none, items⟩, rfl, rfl⟩, _,
    decodeEntries_encode Key.index (fun _ => rfl) hs hes hall, rfl⟩

theorem returns_dictionary {es : List (String × Value)} (hs : Entries.Sorted es)
    (hes : ∀ c ∈ es, Γ.Returns c.2) : Γ.Returns (.dictionary es) := by
  intro i d e h
  obtain ⟨key, value, items, hown, hk, hall, rfl⟩ := encode_dictionary.mp h
  rw [unpack_own (v := .dictionary es) (by simp) rfl, hown, normal_dictionary hown]
  simp only [decodeAs, hk, Checked.bind_eq_ok]
  refine ⟨_, rfl, ?_⟩
  simp only [Checked.bind_eq_ok, Checked.pure_eq_ok]
  exact ⟨_, listWith_eq_ok.mpr ⟨⟨.dictionary, none, items⟩, rfl, rfl⟩, _,
    decodeEntries_encode Key.name (fun _ => rfl) hs hes hall, rfl⟩

theorem returns_list {vs : List Value} (hvs : ∀ v ∈ vs, Γ.Returns v) : Γ.Returns (.list vs) := by
  intro i d e h
  obtain ⟨item, items, hown, hpack, rfl⟩ := encode_list.mp h
  obtain ⟨hpos, hall⟩ := packEachFrom_positions (fun _ _ _ => key_encode) hpack
  have hread : List.Forall₂ (fun e v => Γ.unpack e item = .ok v) items
      (vs.map (Γ.normal · item)) := by
    rw [List.forall₂_map_right_iff]
    apply List.Forall₂.flip
    apply forall₂_imp_mem hall
    rintro v hv x ⟨p, hx⟩
    exact hvs v hv _ _ _ hx
  rw [unpack_own (v := .list vs) (by simp) rfl, hown, normal_list hown]
  simp only [decodeAs, Checked.bind_eq_ok, Checked.exists_unit, Checked.pure_eq_ok]
  refine ⟨_, listWith_eq_ok.mpr ⟨⟨.list, none, items⟩, rfl, rfl⟩, ?_, _, ?_, rfl⟩
  · simpa [expectPositions, readerList, Container.map, Function.comp_def] using hpos
  · simpa [readerList, Container.map, Function.comp_def, Checked.mapM_eq_ok] using hread

theorem returns_struct (hΓ : Γ.Built) {r : Record Value} (hs : Entries.Sorted r.fields)
    (hr : r.Every Γ.Returns) : Γ.Returns (.struct r) := by
  intro i d e h
  obtain ⟨hown, s, hst, l, hl, rfl⟩ := encode_struct.mp h
  obtain ⟨hname, hb⟩ := hΓ.struct hst
  have hback := decodeRecord_encodeRecord hb.distinct hs hr "structure" hl
  obtain ⟨-, -, es, -, rfl⟩ := encodeRecord_eq_ok.mp hl
  rw [unpack_own (v := .struct r) (by simp) (by rw [hname]; rfl), hown, normal_struct hown hst]
  simp only [decodeAs, Checked.bind_eq_ok, Checked.exists_unit, Checked.pure_eq_ok]
  exact ⟨_, listWith_ofList .., Container.expectType_eq_ok.mpr (congrArg some hname), s, hst, _,
    hback, rfl⟩

theorem returns_pod (hΓ : Γ.Built) {r : Record Value} (hs : Entries.Sorted r.fields)
    (hr : r.Every Γ.Returns) : Γ.Returns (.pod r) := by
  intro i d e h
  obtain ⟨t, hown, p, hp, l, hl, rfl⟩ := encode_pod.mp h
  obtain ⟨hname, hb⟩ := hΓ.pod hp
  have hback : p.decodeArray (Γ.readerList l) = .ok [r] :=
    PodType.decodeArray_encodeArray hΓ hb (by simpa using hs) (by simpa using hr) hl
  obtain ⟨-, es, -, rfl⟩ := PodType.encodeArray_eq_ok.mp hl
  by_cases hd : d = .any
  · subst hd
    cases hown
    rw [normal, ← hname]
    exact unpackAny_podArray (hname ▸ hp) (listWith_ofList ..) hback
  · obtain rfl := Ty.eq_of_orOwn hd hown
    rw [unpack_of_ne hd (by simp)]
    simp only [decodeAs, decodePods, normal, Checked.bind_eq_ok, Checked.pure_eq_ok]
    exact ⟨p, hp, _, listWith_ofList .., [r], hback, r, only_eq_ok.mpr rfl, rfl⟩

theorem returns_podArray (hΓ : Γ.Built) {t : String} {rs : List (Record Value)}
    (hs : ∀ r ∈ rs, Entries.Sorted r.fields) (hr : ∀ r ∈ rs, r.Every Γ.Returns) :
    Γ.Returns (.podArray t rs) := by
  intro i d e h
  obtain ⟨len, hown, hlen, p, hp, l, hl, rfl⟩ := encode_podArray.mp h
  obtain ⟨hname, hb⟩ := hΓ.pod hp
  have hback := PodType.decodeArray_encodeArray hΓ hb hs hr hl
  obtain ⟨-, es, -, rfl⟩ := PodType.encodeArray_eq_ok.mp hl
  rw [unpack_own (v := .podArray t rs) (by simp) (by rw [hname]; rfl), hown]
  simp only [decodeAs, decodePods, normal, Checked.bind_eq_ok, Checked.exists_unit,
    Checked.pure_eq_ok]
  exact ⟨p, hp, _, listWith_ofList .., rs, hback, hlen, rfl⟩

theorem returns_podBlock (hΓ : Γ.Built) {t : String} {dims : List UInt32}
    {rs : List (Record Value)} (hb : Block.WellFormed ⟨dims, rs⟩)
    (hs : ∀ r ∈ rs, Entries.Sorted r.fields) (hr : ∀ r ∈ rs, r.Every Γ.Returns) :
    Γ.Returns (.podBlock t ⟨dims, rs⟩) := by
  intro i d e h
  obtain ⟨axes, hown, hdims, p, hp, l, hl, rfl⟩ := encode_podBlock.mp h
  obtain ⟨hname, hbuilt⟩ := hΓ.pod hp
  have hback := PodType.decodeBlock_encodeBlock hΓ hbuilt hb hs hr hl
  obtain ⟨array, -, rfl⟩ := PodType.encodeBlock_eq_ok.mp hl
  rw [unpack_own (v := .podBlock t ⟨dims, rs⟩) (by simp) (by rw [hname]; rfl), hown]
  simp only [decodeAs, decodePods, normal, Checked.bind_eq_ok, Checked.exists_unit,
    Checked.pure_eq_ok]
  exact ⟨p, hp, _, listWith_ofList .., _, hback, hdims,
    by rw [hname]⟩

theorem returns_named (hΓ : Γ.Built) (r : NamedRecord) : Γ.Returns (.named r) := by
  intro i d e h
  obtain ⟨t, hown, a, ha, l, hl, rfl⟩ := encode_named.mp h
  obtain ⟨hname, hb⟩ := hΓ.named ha
  have hback := NamedType.decodeArray_encodeArray hb hl
  obtain ⟨-, -, flat, -, rfl⟩ := NamedType.encodeArray_eq_ok.mp hl
  by_cases hd : d = .any
  · subst hd
    cases hown
    rw [normal, ← hname]
    exact unpackAny_namedArray (hname ▸ ha) (Element.listOf_ofList ..) hback
  · obtain rfl := Ty.eq_of_orOwn hd hown
    rw [unpack_of_ne hd (by simp)]
    simp only [decodeAs, decodeNamed, normal, Checked.bind_eq_ok, Checked.pure_eq_ok]
    exact ⟨a, ha, _, Element.listOf_ofList .., [r], hback, r, only_eq_ok.mpr rfl, rfl⟩

theorem returns_namedArray (hΓ : Γ.Built) (t : String) (rs : List NamedRecord) :
    Γ.Returns (.namedArray t rs) := by
  intro i d e h
  obtain ⟨len, hown, hlen, a, ha, l, hl, rfl⟩ := encode_namedArray.mp h
  obtain ⟨hname, hb⟩ := hΓ.named ha
  have hback := NamedType.decodeArray_encodeArray hb hl
  obtain ⟨-, -, flat, -, rfl⟩ := NamedType.encodeArray_eq_ok.mp hl
  rw [unpack_own (v := .namedArray t rs) (by simp) (by rw [hname]; rfl), hown]
  simp only [decodeAs, decodeNamed, normal, Checked.bind_eq_ok, Checked.exists_unit,
    Checked.pure_eq_ok]
  exact ⟨a, ha, _, Element.listOf_ofList .., rs, hback, hlen, rfl⟩

theorem returns_namedBlock (hΓ : Γ.Built) (t : String) {b : Block NamedRecord}
    (hb : b.WellFormed) : Γ.Returns (.namedBlock t b) := by
  intro i d e h
  obtain ⟨axes, hown, hdims, a, ha, l, hl, rfl⟩ := encode_namedBlock.mp h
  obtain ⟨hname, hbuilt⟩ := hΓ.named ha
  have hback := NamedType.decodeBlock_encodeBlock hbuilt hb hl
  obtain ⟨array, -, rfl⟩ := NamedType.encodeBlock_eq_ok.mp hl
  rw [unpack_own (v := .namedBlock t b) (by simp) (by rw [hname]; rfl), hown]
  simp only [decodeAs, decodeNamed, normal, Checked.bind_eq_ok, Checked.exists_unit,
    Checked.pure_eq_ok]
  exact ⟨a, ha, _, Element.listOf_ofList .., b, hback, hdims, by rw [hname]⟩

theorem returns (hΓ : Γ.Built) {v : Value} (hv : v.WellFormed) : Γ.Returns v := by
  induction v with
  | null => exact returns_null
  | scalar s => exact returns_scalar s
  | array a => exact returns_array a
  | block k b => exact returns_block hv
  | text s => exact returns_text s
  | enum t n => exact returns_enum t n
  | vector es ih =>
    obtain ⟨hs, hes⟩ := hv
    rw [Value.vectorWellFormed_iff] at hes
    exact returns_vector hs fun c hc => ih c hc (hes c hc)
  | dictionary es ih =>
    obtain ⟨hs, hes⟩ := hv
    rw [Value.fieldsWellFormed_iff] at hes
    exact returns_dictionary hs fun c hc => ih c hc (hes c hc)
  | list vs ih =>
    have hvs := Value.listWellFormed_iff.mp hv
    exact returns_list fun v hv => ih v hv (hvs v hv)
  | struct r ih => exact returns_struct hΓ hv.sorted (hv.every ih)
  | pod r ih => exact returns_pod hΓ hv.sorted (hv.every ih)
  | podArray t rs ih =>
    have hrs := Value.recordsWellFormed_iff.mp hv
    exact returns_podArray hΓ (fun r hr => (hrs r hr).sorted) fun r hr => (hrs r hr).every (ih r hr)
  | podBlock t dims rs ih =>
    obtain ⟨hb, hrs⟩ := hv
    rw [Value.recordsWellFormed_iff] at hrs
    exact returns_podBlock hΓ hb (fun r hr => (hrs r hr).sorted)
      fun r hr => (hrs r hr).every (ih r hr)
  | named r => exact returns_named hΓ r
  | namedArray t rs => exact returns_namedArray hΓ t rs
  | namedBlock t b => exact returns_namedBlock hΓ t hv

theorem roundTrips (hΓ : Γ.Built) (hP : Γ.Concrete P) {v : Value} (hv : v.WellFormed) (i : Key)
    (d : Ty) (e : Element) (hd : P d) (h : Γ.encode v i d = .ok e) : Γ.unpack e d = .ok v := by
  rw [returns hΓ hv i d e h, hP.normal_eq v hd]

/-- The typed round trip, where no declared type is open: an element carries the identity it was
packed under and holds exactly the value it was packed from. -/
theorem unpack_pack (hΓ : Γ.Built)
    (hs : ∀ t s, Γ.struct t = .ok s → ∀ f ∈ s.fields, f.ty.Closed) {d : Ty} (hd : d.Closed)
    {v : Value} (hv : v.WellFormed) {i : Key} {e : Element} (h : Γ.pack i v d = .ok e) :
    e.key = i ∧ Γ.unpack e d = .ok v :=
  ⟨key_encode h, roundTrips hΓ (hΓ.concrete_closed hs) hv i d e hd h⟩

theorem unpack_pack_drive : ∃ e,
    Geo.scope.pack (.name "run") Geo.drive (.struct "geo.Track") = .ok e ∧ e.key = .name "run" ∧
      Geo.scope.unpack e (.struct "geo.Track") = .ok Geo.drive := by
  have hs : ∀ t s, Geo.scope.struct t = .ok s → ∀ f ∈ s.fields, f.ty.Closed := by
    intro t s h
    rw [Geo.eq_track h]
    simp [Geo.track, Ty.Closed]
  exact ⟨_, rfl, unpack_pack (d := .struct "geo.Track") Geo.scope_built hs trivial
    Geo.drive_wellFormed rfl⟩

end Scope

end TypedWire
