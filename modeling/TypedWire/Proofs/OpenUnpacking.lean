import TypedWire.Proofs.Unpacking

namespace TypedWire

namespace Value

mutual

/-- The value with each single number and record in an array of its own; no record is changed. -/
def widen : Value → Value
  | .scalar s => .array s.toArray
  | .enum _ n => .array ⟨.int32, [Item.ofInt32 n]⟩
  | .pod r => .podArray r.typeName [r]
  | .named r => .namedArray r.typeName [r]
  | .vector es => .vector (widenVector es)
  | .dictionary es => .dictionary (widenDictionary es)
  | .list vs => .list (widenList vs)
  | v => v

def widenVector : List (Int32 × Value) → List (Int32 × Value)
  | [] => []
  | (k, v) :: es => (k, v.widen) :: widenVector es

def widenDictionary : List (String × Value) → List (String × Value)
  | [] => []
  | (k, v) :: es => (k, v.widen) :: widenDictionary es

def widenList : List Value → List Value
  | [] => []
  | v :: vs => v.widen :: widenList vs

end

theorem widenVector_eq (es : List (Int32 × Value)) :
    widenVector es = es.map fun e => (e.1, e.2.widen) := by
  induction es with
  | nil => rfl
  | cons e es ih => rw [widenVector, ih, List.map_cons]

theorem widenDictionary_eq (es : List (String × Value)) :
    widenDictionary es = es.map fun e => (e.1, e.2.widen) := by
  induction es with
  | nil => rfl
  | cons e es ih => rw [widenDictionary, ih, List.map_cons]

theorem widenList_eq (vs : List Value) : widenList vs = vs.map widen := by
  induction vs with
  | nil => rfl
  | cons v vs ih => rw [widenList, ih, List.map_cons]

end Value

theorem decodeEntries_widen {κ : Type} [DecidableEq κ] [LT κ] [DecidableLT κ]
    {key : Key → Checked κ} {text : κ → String} {value : Ty} {seen es : List (κ × Value)}
    {rs : List Reader}
    (hrs : ∀ r ∈ rs, ∀ v, r.read value = .ok v → r.read .any = .ok v.widen)
    (h : decodeEntries key text value seen rs = .ok es) :
    decodeEntries key text .any (seen.map fun e => (e.1, e.2.widen)) rs =
      .ok (es.map fun e => (e.1, e.2.widen)) := by
  induction rs generalizing seen with
  | nil =>
    cases h
    rfl
  | cons r rs ih =>
    simp only [decodeEntries, Checked.bind_eq_ok, Checked.refuse_eq_ok] at h ⊢
    obtain ⟨k, hk, hnew, v, hv, htail⟩ := h
    refine ⟨k, hk, ?_, v.widen, hrs r List.mem_cons_self v hv, ?_⟩
    · simpa [Entries.get?_map] using hnew
    · rw [Entries.put_map]
      exact ih (fun r hr => hrs r (List.mem_cons_of_mem _ hr)) htail

theorem typeName_of_decodeRecord {what t : String} {table : List Field} {l : Container Reader}
    {r : Record Value} (h : decodeRecord what t table l = .ok r) : r.typeName = t := by
  simp only [decodeRecord, Checked.bind_eq_ok, Prod.exists, Checked.pure_eq_ok] at h
  obtain ⟨_, _, _, _, _, _, _, _, _, _, _, rfl⟩ := h
  rfl

theorem find?_of_unwrapBlock {items : List Element} {dims : List UInt32} {array : Element}
    (h : unwrapBlock (fun e => e) items = .ok (dims, array)) :
    items.find? (·.key = .name arrayName) = some array := by
  simp only [unwrapBlock, Checked.bind_eq_ok, Prod.exists, Checked.pure_eq_ok] at h
  obtain ⟨c, hc, x, c', hx, _, -, _, -, y, c'', hy, _, -, hpair⟩ := h
  cases hpair
  rw [NamedChildren.find?_listed (NamedChildren.ofList_eq_ok.mp hc).1,
    ← NamedChildren.lookup_take hx (by simp [dimsName, arrayName])]
  exact (NamedChildren.take_eq_ok.mp hy).1

theorem PodType.typeName_of_decodeArray {p : PodType} {l : Container Reader}
    {rs : List (Record Value)} (h : p.decodeArray l = .ok rs) :
    l.typeName = some p.typeName ∧ ∀ r ∈ rs, r.typeName = p.typeName := by
  simp only [decodeArray, Checked.bind_eq_ok, Checked.exists_unit,
    Container.expectType_eq_ok] at h
  obtain ⟨-, ht, -, hrs⟩ := h
  refine ⟨ht, fun r hr => ?_⟩
  obtain ⟨_, -, hone⟩ := Checked.exists_of_mapM hrs r hr
  obtain ⟨_, -, hone⟩ := Checked.bind_eq_ok.mp hone
  exact typeName_of_decodeRecord hone

theorem PodType.typeName_of_decodeBlock {p : PodType} {l : Container Reader}
    {b : Block (Record Value)} (h : p.decodeBlock l = .ok b) :
    l.typeName = some p.typeName := by
  simp only [decodeBlock, Checked.bind_eq_ok, Checked.exists_unit,
    Container.expectType_eq_ok] at h
  exact h.2.1

theorem NamedType.typeName_of_decodeArray {d : NamedType} {l : Container Element}
    {rs : List NamedRecord} (h : d.decodeArray l = .ok rs) :
    l.typeName = some d.typeName ∧ ∀ r ∈ rs, r.typeName = d.typeName := by
  simp only [decodeArray, Checked.bind_eq_ok, Checked.exists_unit, Container.expectType_eq_ok,
    Prod.exists, Checked.pure_eq_ok] at h
  obtain ⟨-, ht, _, -, _, _, -, _, -, -, parts, -, rfl⟩ := h
  constructor
  · exact ht
  · intro r hr
    obtain ⟨a, -, rfl⟩ := List.mem_map.mp hr
    rfl

theorem NamedType.typeName_of_decodeBlock {d : NamedType} {l : Container Element}
    {b : Block NamedRecord} (h : d.decodeBlock l = .ok b) : l.typeName = some d.typeName := by
  simp only [decodeBlock, Checked.bind_eq_ok, Checked.exists_unit,
    Container.expectType_eq_ok] at h
  exact h.2.1

namespace Element

variable {e : Element}

theorem ty_of_arrayOf {k : NumericKind} {a : Numbers} (h : e.arrayOf k = .ok a) :
    e.ty = .ok (.array k .free) := by
  obtain ⟨i, bytes, rfl, -⟩ := arrayOf_eq_ok.mp h
  rfl

theorem ty_of_text {s : String} (h : e.text = .ok s) : e.ty = .ok .text := by
  cases e with
  | void i => cases h
  | flat i form bytes =>
    cases form with
    | numeric k => cases h
    | text => rfl
  | nested i kind t es => cases h

theorem ty_of_listOf {k : ListKind} {l : Container Element} (h : e.listOf k = .ok l) :
    e.ty = (nested e.key k l.typeName l.items).ty := by
  obtain ⟨i, rfl⟩ := exists_of_listOf h
  rfl

theorem ty_ne_any {d : Ty} (he : e.tag ≠ .void) (h : e.ty = .ok d) : d ≠ .any := by
  rintro rfl
  cases e with
  | void i => exact he rfl
  | flat i form bytes => cases form <;> cases h
  | nested i kind t items =>
    cases kind with
    | block =>
      simp only [ty] at h
      split at h
      · split at h <;> cases h
      · cases h
    | _ => simp [ty] at h

theorem tag_ne_void {d : Ty} (h : e.ty = .ok d) (hd : d ≠ .any) : e.tag ≠ .void := by
  cases e with
  | void i =>
    cases h
    exact absurd rfl hd
  | flat i form bytes => simp
  | nested i kind t items => simp

end Element

namespace Scope

variable {Γ : Scope} {e : Element} {d : Ty} {v : Value}

theorem unpack_eq_ok (he : e.tag ≠ .void) : Γ.unpack e d = .ok v ↔
    ∃ d', d.orTag e = .ok d' ∧ Γ.decodeAs e (e.children.map Γ.reader) d' = .ok v := by
  rw [unpack_eq, decodeWith, if_neg he, Checked.bind_eq_ok]

theorem unpackAny_eq (h : e.ty = .ok d) (hd : d ≠ .any) :
    Γ.unpackAny e = Γ.decodeAs e (e.children.map Γ.reader) d := by
  rw [unpackAny, unpack_eq, decodeWith, if_neg (Element.tag_ne_void h hd), Ty.any_orTag, h]
  rfl

theorem orTag_ne_any (he : e.tag ≠ .void) {d' : Ty} (h : d.orTag e = .ok d') : d' ≠ .any := by
  by_cases hd : d = .any
  · subst hd
    exact Element.ty_ne_any he h
  · rw [Ty.orTag_of_ne hd] at h
    cases h
    exact hd

def Widens (Γ : Scope) (e : Element) : Prop :=
  ∀ d v, Γ.unpack e d = .ok v → Γ.unpackAny e = .ok v.widen

theorem read_widen {es : List Element} (h : ∀ c ∈ es, Γ.Widens c) (d : Ty) :
    ∀ r ∈ es.map Γ.reader, ∀ v, r.read d = .ok v → r.read .any = .ok v.widen := by
  intro r hr v hv
  obtain ⟨c, hc, rfl⟩ := List.mem_map.mp hr
  exact h c hc d v hv

section Widening

theorem unpackAny_scalar {k : NumericKind}
    (h : Γ.decodeAs e (e.children.map Γ.reader) (.scalar k) = .ok v) :
    Γ.unpackAny e = .ok v.widen := by
  simp only [decodeAs, Checked.bind_eq_ok, Checked.pure_eq_ok] at h
  obtain ⟨a, ha, s, hs, rfl⟩ := h
  cases Scalar.ofArray_eq_ok.mp hs
  rw [unpackAny_eq (Element.ty_of_arrayOf ha) (by simp)]
  simp only [decodeAs, Checked.bind_eq_ok, Checked.exists_unit, Checked.pure_eq_ok]
  exact ⟨_, ha, rfl, rfl⟩

theorem unpackAny_array {k : NumericKind} {len : Extent}
    (h : Γ.decodeAs e (e.children.map Γ.reader) (.array k len) = .ok v) :
    Γ.unpackAny e = .ok v.widen := by
  simp only [decodeAs, Checked.bind_eq_ok, Checked.exists_unit, Checked.pure_eq_ok] at h
  obtain ⟨a, ha, -, rfl⟩ := h
  rw [unpackAny_eq (Element.ty_of_arrayOf ha) (by simp)]
  simp only [decodeAs, Checked.bind_eq_ok, Checked.exists_unit, Checked.pure_eq_ok]
  exact ⟨a, ha, rfl, rfl⟩

theorem ty_of_decodeAs_block {k : NumericKind} {expected : Option (List UInt32)} {cs : List Reader}
    (h : Γ.decodeAs e cs (.block k expected) = .ok v) : e.ty = .ok (.block k none) := by
  simp only [decodeAs, Checked.bind_eq_ok, Prod.exists] at h
  obtain ⟨l, hl, dims, array, hu, _, -, a, ha, -⟩ := h
  obtain ⟨j, bytes, rfl, -⟩ := Element.arrayOf_eq_ok.mp ha
  rw [Element.ty_of_listOf hl]
  simp only [Element.ty, find?_of_unwrapBlock hu]
  rfl

theorem unpackAny_block {k : NumericKind} {expected : Option (List UInt32)}
    (h : Γ.decodeAs e (e.children.map Γ.reader) (.block k expected) = .ok v) :
    Γ.unpackAny e = .ok v.widen := by
  rw [unpackAny_eq (ty_of_decodeAs_block h) (by simp)]
  simp only [decodeAs, Checked.bind_eq_ok, Checked.exists_unit, Checked.pure_eq_ok,
    Prod.exists] at h
  obtain ⟨l, hl, dims, array, hu, -, a, ha, items, hitems, b, hb, rfl⟩ := h
  simp only [decodeAs, Checked.bind_eq_ok, Checked.exists_unit, Checked.pure_eq_ok, Prod.exists]
  exact ⟨l, hl, dims, array, hu, rfl, a, ha, items, hitems, b, hb, rfl⟩

theorem unpackAny_text (h : Γ.decodeAs e (e.children.map Γ.reader) .text = .ok v) :
    Γ.unpackAny e = .ok v.widen := by
  simp only [decodeAs, Checked.bind_eq_ok, Checked.pure_eq_ok] at h
  obtain ⟨s, hs, rfl⟩ := h
  rw [unpackAny_eq (Element.ty_of_text hs) (by simp)]
  simp only [decodeAs, Checked.bind_eq_ok, Checked.pure_eq_ok]
  exact ⟨s, hs, rfl⟩

theorem unpackAny_enum {t : String}
    (h : Γ.decodeAs e (e.children.map Γ.reader) (.enum t) = .ok v) :
    Γ.unpackAny e = .ok v.widen := by
  simp only [decodeAs, Checked.bind_eq_ok, Checked.pure_eq_ok] at h
  obtain ⟨a, ha, s, hs, x, hx, rfl⟩ := h
  cases Scalar.ofArray_eq_ok.mp hs
  cases Scalar.itemOf_eq_ok.mp hx
  rw [unpackAny_eq (Element.ty_of_arrayOf ha) (by simp)]
  simp only [decodeAs, Checked.bind_eq_ok, Checked.exists_unit, Checked.pure_eq_ok]
  exact ⟨_, ha, rfl, rfl⟩

theorem unpackAny_map {key value : Ty}
    (hc : ∀ c ∈ e.children, Γ.Widens c)
    (h : Γ.decodeAs e (e.children.map Γ.reader) (.map key value) = .ok v) :
    Γ.unpackAny e = .ok v.widen := by
  simp only [decodeAs, Checked.bind_eq_ok] at h
  obtain ⟨kind, -, h⟩ := h
  cases kind with
  | int32 =>
    simp only [Checked.bind_eq_ok, Checked.pure_eq_ok] at h
    obtain ⟨l, hl, es, hes, rfl⟩ := h
    obtain ⟨c, hcl, rfl⟩ := listWith_eq_ok.mp hl
    have hty : e.ty = .ok (.map (.scalar .int32) .any) := Element.ty_of_listOf hcl
    rw [unpackAny_eq hty (by simp)]
    simp only [decodeAs, Ty.keyKind, Checked.bind_eq_ok]
    refine ⟨_, rfl, ?_⟩
    simp only [Checked.bind_eq_ok, Checked.pure_eq_ok]
    refine ⟨_, hl, _, decodeEntries_widen (read_widen ?_ value) hes, ?_⟩
    · rwa [Element.children_of_listOf hcl] at hc
    · rw [Value.widen, Value.widenVector_eq]
  | text =>
    simp only [Checked.bind_eq_ok, Checked.pure_eq_ok] at h
    obtain ⟨l, hl, es, hes, rfl⟩ := h
    obtain ⟨c, hcl, rfl⟩ := listWith_eq_ok.mp hl
    have hty : e.ty = .ok (.map .text .any) := Element.ty_of_listOf hcl
    rw [unpackAny_eq hty (by simp)]
    simp only [decodeAs, Ty.keyKind, Checked.bind_eq_ok]
    refine ⟨_, rfl, ?_⟩
    simp only [Checked.bind_eq_ok, Checked.pure_eq_ok]
    refine ⟨_, hl, _, decodeEntries_widen (read_widen ?_ value) hes, ?_⟩
    · rwa [Element.children_of_listOf hcl] at hc
    · rw [Value.widen, Value.widenDictionary_eq]

theorem unpackAny_list {item : Ty}
    (hc : ∀ c ∈ e.children, Γ.Widens c)
    (h : Γ.decodeAs e (e.children.map Γ.reader) (.list item) = .ok v) :
    Γ.unpackAny e = .ok v.widen := by
  simp only [decodeAs, Checked.bind_eq_ok, Checked.exists_unit, Checked.pure_eq_ok] at h
  obtain ⟨l, hl, hpos, vs, hvs, rfl⟩ := h
  obtain ⟨c, hcl, rfl⟩ := listWith_eq_ok.mp hl
  have hty : e.ty = .ok (.list .any) := Element.ty_of_listOf hcl
  rw [unpackAny_eq hty (by simp)]
  simp only [decodeAs, Checked.bind_eq_ok, Checked.exists_unit, Checked.pure_eq_ok]
  refine ⟨_, hl, hpos, vs.map Value.widen, ?_, by rw [Value.widen, Value.widenList_eq]⟩
  simp only [readerList, Container.map, List.mapM_map, Function.comp_def, read_reader,
    Checked.mapM_eq_ok] at hvs ⊢
  rw [Element.children_of_listOf hcl] at hc
  rw [List.forall₂_map_right_iff]
  apply forall₂_imp_mem hvs
  intro c hmem v hv
  exact hc c hmem item v hv

theorem unpackAny_struct {t : String}
    (h : Γ.decodeAs e (e.children.map Γ.reader) (.struct t) = .ok v) :
    Γ.unpackAny e = .ok v.widen := by
  simp only [decodeAs, Checked.bind_eq_ok, Checked.exists_unit, Checked.pure_eq_ok,
    Container.expectType_eq_ok] at h
  obtain ⟨l, hl, ht, s, hs, r, hr, rfl⟩ := h
  obtain ⟨c, hcl, rfl⟩ := listWith_eq_ok.mp hl
  have hty : e.ty = .ok (.struct t) := by
    rw [Element.ty_of_listOf hcl, show c.typeName = some t from ht]
    rfl
  rw [unpackAny_eq hty (by simp)]
  simp only [decodeAs, Checked.bind_eq_ok, Checked.exists_unit, Checked.pure_eq_ok,
    Container.expectType_eq_ok]
  exact ⟨_, hl, ht, s, hs, r, hr, rfl⟩

theorem unpackAny_podArray {p : PodType} {l : Container Reader} {rs : List (Record Value)}
    (hp : Γ.pod p.typeName = .ok p)
    (hl : e.listWith .podArray (e.children.map Γ.reader) = .ok l)
    (hrs : p.decodeArray l = .ok rs) : Γ.unpackAny e = .ok (.podArray p.typeName rs) := by
  obtain ⟨ht, -⟩ := PodType.typeName_of_decodeArray hrs
  obtain ⟨c, hcl, rfl⟩ := listWith_eq_ok.mp hl
  have hty : e.ty = .ok (.pod p.typeName (.array .free)) := by
    rw [Element.ty_of_listOf hcl, show c.typeName = some p.typeName from ht]
    rfl
  rw [unpackAny_eq hty (by simp)]
  simp only [decodeAs, decodePods, Checked.bind_eq_ok, Checked.exists_unit, Checked.pure_eq_ok]
  exact ⟨p, hp, _, hl, rs, hrs, rfl, rfl⟩

theorem unpackAny_pod (hΓ : Γ.Built) {t : String} {shape : Shape}
    (h : Γ.decodeAs e (e.children.map Γ.reader) (.pod t shape) = .ok v) :
    Γ.unpackAny e = .ok v.widen := by
  simp only [decodeAs, decodePods, Checked.bind_eq_ok] at h
  obtain ⟨p, hp, h⟩ := h
  obtain rfl : p.typeName = t := (hΓ.pod hp).1
  cases shape with
  | single =>
    simp only [Checked.bind_eq_ok, Checked.pure_eq_ok, only_eq_ok] at h
    obtain ⟨l, hl, _, hrs, r, rfl, rfl⟩ := h
    have hr := (PodType.typeName_of_decodeArray hrs).2 r List.mem_cons_self
    rw [Value.widen, hr]
    exact unpackAny_podArray hp hl hrs
  | array len =>
    simp only [Checked.bind_eq_ok, Checked.exists_unit, Checked.pure_eq_ok] at h
    obtain ⟨l, hl, rs, hrs, -, rfl⟩ := h
    exact unpackAny_podArray hp hl hrs
  | block dims =>
    simp only [Checked.bind_eq_ok, Checked.exists_unit, Checked.pure_eq_ok] at h
    obtain ⟨l, hl, b, hb, -, rfl⟩ := h
    have ht := PodType.typeName_of_decodeBlock hb
    obtain ⟨c, hcl, rfl⟩ := listWith_eq_ok.mp hl
    have hty : e.ty = .ok (.pod p.typeName (.block none)) := by
      rw [Element.ty_of_listOf hcl, show c.typeName = some p.typeName from ht]
      rfl
    rw [unpackAny_eq hty (by simp)]
    simp only [decodeAs, decodePods, Checked.bind_eq_ok, Checked.exists_unit, Checked.pure_eq_ok]
    exact ⟨p, hp, _, hl, b, hb, rfl, rfl⟩

theorem unpackAny_namedArray {a : NamedType} {l : Container Element} {rs : List NamedRecord}
    (ha : Γ.named a.typeName = .ok a) (hl : e.listOf .namedArray = .ok l)
    (hrs : a.decodeArray l = .ok rs) : Γ.unpackAny e = .ok (.namedArray a.typeName rs) := by
  have hty : e.ty = .ok (.named a.typeName (.array .free)) := by
    rw [Element.ty_of_listOf hl, (NamedType.typeName_of_decodeArray hrs).1]
    rfl
  rw [unpackAny_eq hty (by simp)]
  simp only [decodeAs, decodeNamed, Checked.bind_eq_ok, Checked.exists_unit, Checked.pure_eq_ok]
  exact ⟨a, ha, l, hl, rs, hrs, rfl, rfl⟩

theorem unpackAny_named (hΓ : Γ.Built) {t : String} {shape : Shape}
    (h : Γ.decodeAs e (e.children.map Γ.reader) (.named t shape) = .ok v) :
    Γ.unpackAny e = .ok v.widen := by
  simp only [decodeAs, decodeNamed, Checked.bind_eq_ok] at h
  obtain ⟨a, ha, h⟩ := h
  obtain rfl : a.typeName = t := (hΓ.named ha).1
  cases shape with
  | single =>
    simp only [Checked.bind_eq_ok, Checked.pure_eq_ok, only_eq_ok] at h
    obtain ⟨l, hl, _, hrs, r, rfl, rfl⟩ := h
    have hr := (NamedType.typeName_of_decodeArray hrs).2 r List.mem_cons_self
    rw [Value.widen, hr]
    exact unpackAny_namedArray ha hl hrs
  | array len =>
    simp only [Checked.bind_eq_ok, Checked.exists_unit, Checked.pure_eq_ok] at h
    obtain ⟨l, hl, rs, hrs, -, rfl⟩ := h
    exact unpackAny_namedArray ha hl hrs
  | block dims =>
    simp only [Checked.bind_eq_ok, Checked.exists_unit, Checked.pure_eq_ok] at h
    obtain ⟨l, hl, b, hb, -, rfl⟩ := h
    have hty : e.ty = .ok (.named a.typeName (.block none)) := by
      rw [Element.ty_of_listOf hl, NamedType.typeName_of_decodeBlock hb]
      rfl
    rw [unpackAny_eq hty (by simp)]
    simp only [decodeAs, decodeNamed, Checked.bind_eq_ok, Checked.exists_unit, Checked.pure_eq_ok]
    exact ⟨a, ha, l, hl, b, hb, rfl, rfl⟩

end Widening

theorem widens_of_children (hΓ : Γ.Built) (he : e.tag ≠ .void)
    (hc : ∀ c ∈ e.children, Γ.Widens c) : Γ.Widens e := by
  intro d v h
  obtain ⟨d', hd', h⟩ := (unpack_eq_ok he).mp h
  have hne := orTag_ne_any he hd'
  cases d' with
  | any => exact absurd rfl hne
  | scalar k => exact unpackAny_scalar h
  | array k len => exact unpackAny_array h
  | block k dims => exact unpackAny_block h
  | text => exact unpackAny_text h
  | enum t => exact unpackAny_enum h
  | map key value => exact unpackAny_map hc h
  | list item => exact unpackAny_list hc h
  | struct t => exact unpackAny_struct h
  | pod t shape => exact unpackAny_pod hΓ h
  | named t shape => exact unpackAny_named hΓ h

/-- What an element holds under a type is what it holds by its own tag, up to the arrays that single
numbers and records are widened to. -/
theorem unpackAny_of_unpack (hΓ : Γ.Built) (h : Γ.unpack e d = .ok v) :
    Γ.unpackAny e = .ok v.widen := by
  suffices Γ.Widens e from this d v h
  clear h
  induction e with
  | void i =>
    intro d v h
    rw [unpack_eq, decodeWith, if_pos (show (Element.void i).tag = .void from rfl),
      Checked.guard_eq_ok] at h
    obtain ⟨-, h⟩ := h
    cases h
    exact unpack_void i trivial
  | flat i form bytes => exact widens_of_children hΓ (by simp) (List.forall_mem_nil _)
  | nested i kind t es ih => exact widens_of_children hΓ (by simp) ih

theorem unpackAny_of_unpack_state :
    let e := Element.ofList (.index 0) ⟨.dictionary, none,
      [.ofArray (.name "state") ⟨.int32, [.ofInt32 2]⟩]⟩
    Geo.scope.unpack e (.map .text (.enum "geo.State")) =
        .ok (.dictionary [("state", .enum "geo.State" 2)]) ∧
      Geo.scope.unpackAny e =
        .ok (.dictionary [("state", .array ⟨.int32, [.ofInt32 2]⟩)]) :=
  ⟨rfl, unpackAny_of_unpack (d := .map .text (.enum "geo.State"))
    (v := .dictionary [("state", .enum "geo.State" 2)]) Geo.scope_built rfl⟩

end Scope

end TypedWire
