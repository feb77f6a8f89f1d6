import TypedWire.Proofs.Built
import TypedWire.Proofs.Packing

namespace TypedWire

namespace Element

mutual

/-- The tree built anew from its leaves, every node by the checked constructors from its own tag,
content, kind, type name and children. -/
def rebuild : Element → Checked Element
  | .void i => make i .void .none
  | .flat i form bytes => make i (.flat form) (.flat bytes)
  | .nested i kind t es => do
    make i (.list kind) (.nested (← Container.make kind t (← rebuildAll es)))

def rebuildAll : List Element → Checked (List Element)
  | [] => .ok []
  | e :: es => do
    let e ← rebuild e
    return e :: (← rebuildAll es)

end

theorem rebuildAll_of_forall {es : List Element} (h : ∀ e ∈ es, e.rebuild = .ok e) :
    rebuildAll es = .ok es := by
  induction es with
  | nil => rfl
  | cons e es ih =>
    obtain ⟨he, hes⟩ := List.forall_mem_cons.mp h
    rw [rebuildAll, he, ih hes]
    rfl

theorem allWellFormed_iff {es : List Element} : AllWellFormed es ↔ ∀ e ∈ es, e.WellFormed := by
  induction es with
  | nil => simp [AllWellFormed]
  | cons e es ih => rw [AllWellFormed, ih, List.forall_mem_cons]

theorem wellFormed_nested {i : Key} {kind : ListKind} {t : Option String} {es : List Element}
    (ht : kind.NeedsTypeName → t.getD "" ≠ "") (hes : ∀ e ∈ es, e.WellFormed) :
    (nested i kind t es).WellFormed :=
  ⟨ht, allWellFormed_iff.mpr hes⟩

theorem wellFormed_ofArray (i : Key) (a : Numbers) : (ofArray i a).WellFormed := by
  change a.bytes.length % FlatForm.width (.numeric a.kind) = 0
  rw [FlatForm.width_numeric, Numbers.length_bytes, Nat.mul_mod_left]

theorem wellFormed_ofText (i : Key) (s : String) : (ofText i s).WellFormed := Nat.mod_one _

theorem wellFormed_block {i : Key} {kind : ListKind} {t : Option String} (dims : List UInt32)
    {array : Element} (ht : kind.NeedsTypeName → t.getD "" ≠ "") (harray : array.WellFormed) :
    (nested i kind t [ofArray (.name dimsName) (dimsArray dims), array]).WellFormed :=
  wellFormed_nested ht (List.forall_mem_cons.mpr
    ⟨wellFormed_ofArray _ _, List.forall_mem_singleton.mpr harray⟩)

theorem rebuild_of_wellFormed {e : Element} (h : e.WellFormed) : e.rebuild = .ok e := by
  induction e with
  | void i => rfl
  | flat i form bytes =>
    have hwidth : bytes.length % form.width = 0 := h
    rw [rebuild, make, if_pos hwidth]
  | nested i kind t es ih =>
    obtain ⟨ht, hes⟩ := h
    rw [allWellFormed_iff] at hes
    have hall : rebuildAll es = .ok es := rebuildAll_of_forall fun e he => ih e he (hes e he)
    have hlist : Container.make kind t es = .ok ⟨kind, t, es⟩ := Container.make_eq_ok.mpr ⟨ht, rfl⟩
    rw [rebuild, hall]
    change (Container.make kind t es >>= fun l => make i (.list kind) (.nested l)) = _
    rw [hlist]
    exact if_pos rfl

def Positioned (es : List Element) : Prop :=
  ∀ (n : Nat) e, es[n]? = some e → ∃ i : Int32, e.key = .index i ∧ i.toInt = n

def At (e : Element) (n : Nat) : Prop := ∃ i : Int32, e.key = .index i ∧ i.toInt = n

theorem at_iff {e : Element} {n : Nat} :
    e.At n ↔ n < positionBound ∧ e.key = .index (Int32.ofNat n) := by
  constructor
  · rintro ⟨i, hkey, hi⟩
    have hn : n < positionBound := Int.ofNat_lt.mp (hi ▸ i.toInt_lt)
    have heq : i = Int32.ofNat n := Int32.toInt_inj.mp (hi.trans (Int32.toInt_ofNat_of_lt hn).symm)
    exact ⟨hn, heq ▸ hkey⟩
  · rintro ⟨hn, hkey⟩
    exact ⟨_, hkey, Int32.toInt_ofNat_of_lt hn⟩

theorem expectPositions_eq_ok {es : List Element} :
    expectPositions (es.map (·.key)) = .ok () ↔ Positioned es := by
  simp only [expectPositions, expectPositionsFrom_eq_ok, List.getElem?_map, Option.map_eq_some_iff,
    Nat.zero_add]
  constructor
  · intro h n e he
    exact at_iff.mpr (h n _ ⟨e, he, rfl⟩)
  · rintro h n _ ⟨e, he, rfl⟩
    exact at_iff.mp (h n e he)

def ListsFields (t : String) (table : List Field) (e : Element) : Prop :=
  ∃ i es, e = .nested i .struct (some t) es ∧ es.map (·.key) = table.map fun f => .name f.name

theorem ListsFields.wellFormed {t : String} {table : List Field} {e : Element}
    (h : e.ListsFields t table) (ht : t ≠ "") (hes : ∀ c ∈ e.children, c.WellFormed) :
    e.WellFormed := by
  obtain ⟨i, es, rfl, -⟩ := h
  exact wellFormed_nested (fun _ => ht) hes

end Element

open Element

/-- A tree in which every container lists its children the one way that packing does. -/
inductive Scope.Canonical (Γ : Scope) : Element → Prop
  | void (i) : Γ.Canonical (.void i)
  | numbers (i a) : Γ.Canonical (.ofArray i a)
  | text (i s) : Γ.Canonical (.ofText i s)
  | vector {i es} (keys : List Int32) : es.map (·.key) = keys.map .index →
      keys.Pairwise (· < ·) → (∀ e ∈ es, Γ.Canonical e) → Γ.Canonical (.nested i .vector none es)
  | dictionary {i es} (names : List String) : es.map (·.key) = names.map .name →
      names.Pairwise (· < ·) → (∀ e ∈ es, Γ.Canonical e) →
      Γ.Canonical (.nested i .dictionary none es)
  | list {i es} : Positioned es → (∀ e ∈ es, Γ.Canonical e) → Γ.Canonical (.nested i .list none es)
  | struct {t s e} : Γ.struct t = .ok s → e.ListsFields t s.fields →
      (∀ c ∈ e.children, Γ.Canonical c) → Γ.Canonical e
  | podArray {i t p es} : Γ.pod t = .ok p → Positioned es → (∀ e ∈ es, e.ListsFields t p.fields) →
      (∀ e ∈ es, ∀ c ∈ e.children, Γ.Canonical c) → Γ.Canonical (.nested i .podArray (some t) es)
  | namedArray {i t d} (a) : Γ.named t = .ok d →
      Γ.Canonical (.nested i .namedArray (some t) [.ofArray (.name arrayName) a])
  | block (i dims a) : Γ.Canonical (.nested i .block none
      [.ofArray (.name dimsName) (dimsArray dims), .ofArray (.name arrayName) a])
  | podBlock {i t p} (dims es) : Γ.pod t = .ok p →
      Γ.Canonical (.nested (.name arrayName) .podArray (some t) es) →
      Γ.Canonical (.nested i .podBlock (some t) [.ofArray (.name dimsName) (dimsArray dims),
        .nested (.name arrayName) .podArray (some t) es])
  | namedBlock {i t d} (dims es) : Γ.named t = .ok d →
      Γ.Canonical (.nested (.name arrayName) .namedArray (some t) es) →
      Γ.Canonical (.nested i .namedBlock (some t) [.ofArray (.name dimsName) (dimsArray dims),
        .nested (.name arrayName) .namedArray (some t) es])

namespace Scope

variable {Γ : Scope}

theorem Canonical.wellFormed {e : Element} (h : Γ.Canonical e) : e.WellFormed := by
  induction h with
  | void i => trivial
  | numbers i a => exact wellFormed_ofArray i a
  | text i s => exact wellFormed_ofText i s
  | vector _ _ _ _ ih => exact wellFormed_nested nofun ih
  | dictionary _ _ _ _ ih => exact wellFormed_nested nofun ih
  | list _ _ ih => exact wellFormed_nested nofun ih
  | struct hs hfields _ ih => exact hfields.wellFormed (ne_empty_of_definition hs) ih
  | podArray hp _ hfields _ ih =>
    have ht := ne_empty_of_definition hp
    exact wellFormed_nested (fun _ => ht) fun e he => (hfields e he).wellFormed ht (ih e he)
  | namedArray a hd =>
    have ht := ne_empty_of_definition hd
    exact wellFormed_nested (fun _ => ht) (List.forall_mem_singleton.mpr (wellFormed_ofArray _ a))
  | block i dims a => exact wellFormed_block dims nofun (wellFormed_ofArray _ a)
  | podBlock dims es hp _ ih =>
    exact wellFormed_block dims (fun _ => ne_empty_of_definition hp) ih
  | namedBlock dims es hd _ ih =>
    exact wellFormed_block dims (fun _ => ne_empty_of_definition hd) ih

end Scope

theorem positioned_of_packEach {α : Type} {pack : Int32 → α → Checked Element} {xs : List α}
    {es : List Element} (hkey : ∀ i x e, pack i x = .ok e → e.key = .index i)
    (h : packEach pack xs = .ok es) : Positioned es :=
  expectPositions_eq_ok.mp (packEachFrom_positions hkey h).1

namespace Scope

variable {Γ : Scope} {P : Element → Prop}

def Yields (Γ : Scope) (P : Element → Prop) (v : Value) : Prop :=
  ∀ i d e, Γ.encode v i d = .ok e → P e

theorem listsFields_of_encodeRecord {t : String} {table : List Field} {r : Record Value}
    {l : Container Element} (h : encodeRecord t table (Γ.encodeParts r) = .ok l)
    (hr : r.Every (Γ.Yields P)) (i : Key) :
    (ofList i l).ListsFields t table ∧ ∀ c ∈ (ofList i l).children, P c := by
  obtain ⟨-, -, es, hes, rfl⟩ := encodeRecord_eq_ok.mp h
  rw [fields_encodeParts] at hes
  have hpacked : List.Forall₂ (fun f e => ∃ v, (f.name, v) ∈ r.fields ∧
      Γ.encode v (.name f.name) f.ty = .ok e) table es := by
    refine (encodeFields_eq_ok.mp hes).2.imp fun f e he => ?_
    obtain ⟨enc, henc, he⟩ := he
    rw [Entries.get?_map, Option.map_eq_some_iff] at henc
    obtain ⟨v, hv, rfl⟩ := henc
    exact ⟨v, Entries.mem_of_get? hv, he⟩
  constructor
  · refine ⟨i, es, rfl, map_eq_map_iff_forall₂.mpr (hpacked.flip.imp fun e f he => ?_)⟩
    obtain ⟨v, -, he⟩ := he
    exact key_encode he
  · intro c hc
    obtain ⟨f, -, v, hv, he⟩ := exists_of_forall₂ hpacked.flip c hc
    exact hr _ hv _ _ _ he

theorem records_of_encodeArray {p : PodType} {rs : List (Record Value)} {l : Container Element}
    (h : p.encodeArray (rs.map Γ.encodeParts) = .ok l) (hrs : ∀ r ∈ rs, r.Every (Γ.Yields P)) :
    ∃ es, l = ⟨.podArray, some p.typeName, es⟩ ∧ Positioned es ∧
      (∀ e ∈ es, e.ListsFields p.typeName p.fields) ∧ ∀ e ∈ es, ∀ c ∈ e.children, P c := by
  obtain ⟨-, es, hes, rfl⟩ := PodType.encodeArray_eq_ok.mp h
  have hkey : ∀ i r e, (do return ofList (.index i) (← p.encodeOne r) : Checked Element) = .ok e →
      e.key = .index i := by
    intro i r e he
    simp only [Checked.bind_eq_ok, Checked.pure_eq_ok] at he
    obtain ⟨l, -, rfl⟩ := he
    rfl
  have hrecord : ∀ e ∈ es, e.ListsFields p.typeName p.fields ∧ ∀ c ∈ e.children, P c := by
    intro e he
    obtain ⟨enc, henc, i, hi⟩ := exists_of_forall₂ (packEachFrom_positions hkey hes).2.flip e he
    obtain ⟨r, hr, rfl⟩ := List.mem_map.mp henc
    simp only [Checked.bind_eq_ok, Checked.pure_eq_ok] at hi
    obtain ⟨l, hl, rfl⟩ := hi
    exact listsFields_of_encodeRecord hl (hrs r hr) (.index i)
  exact ⟨es, rfl, positioned_of_packEach hkey hes, fun e he => (hrecord e he).1,
    fun e he => (hrecord e he).2⟩

theorem canonical_podArray (hΓ : Γ.Built) {t : String} {p : PodType} (hp : Γ.pod t = .ok p)
    {rs : List (Record Value)} {l : Container Element}
    (h : p.encodeArray (rs.map Γ.encodeParts) = .ok l)
    (hrs : ∀ r ∈ rs, r.Every (Γ.Yields Γ.Canonical)) (i : Key) :
    ∃ es, l = ⟨.podArray, some t, es⟩ ∧ Γ.Canonical (.nested i .podArray (some t) es) := by
  obtain ⟨es, rfl, hpos, hfields, hinside⟩ := records_of_encodeArray h hrs
  rw [(hΓ.pod hp).1] at hfields ⊢
  exact ⟨es, rfl, .podArray hp hpos hfields hinside⟩

theorem canonical_namedArray (hΓ : Γ.Built) {t : String} {d : NamedType} (hd : Γ.named t = .ok d)
    {rs : List NamedRecord} {l : Container Element} (h : d.encodeArray rs = .ok l) (i : Key) :
    ∃ es, l = ⟨.namedArray, some t, es⟩ ∧ Γ.Canonical (.nested i .namedArray (some t) es) := by
  obtain ⟨-, -, flat, -, rfl⟩ := NamedType.encodeArray_eq_ok.mp h
  rw [(hΓ.named hd).1]
  exact ⟨_, rfl, .namedArray flat hd⟩

theorem keys_of_entries {κ : Type} {key : κ → Key} {value : Ty} {entries : List (κ × Value)}
    {es : List Element}
    (h : List.Forall₂ (fun c x => Γ.encode c.2 (key c.1) value = .ok x) entries es) :
    es.map (·.key) = (entries.map (·.1)).map key := by
  rw [List.map_map]
  exact map_eq_map_iff_forall₂.mpr (h.flip.imp fun x c hx => key_encode hx)

theorem yields_canonical (hΓ : Γ.Built) {v : Value} (hv : v.WellFormed) :
    Γ.Yields Γ.Canonical v := by
  induction v with
  | null =>
    intro i d e h
    obtain ⟨-, rfl⟩ := encode_null.mp h
    exact .void i
  | scalar s =>
    intro i d e h
    obtain ⟨-, rfl⟩ := encode_scalar.mp h
    exact .numbers i _
  | array a =>
    intro i d e h
    obtain ⟨_, -, -, rfl⟩ := encode_array.mp h
    exact .numbers i a
  | block k b =>
    intro i d e h
    obtain ⟨_, -, -, rfl⟩ := encode_block.mp h
    exact .block i b.dims _
  | text s =>
    intro i d e h
    obtain ⟨-, rfl⟩ := encode_text.mp h
    exact .text i s
  | enum t n =>
    intro i d e h
    obtain ⟨-, rfl⟩ := encode_enum.mp h
    exact .numbers i _
  | vector entries ih =>
    intro i d e h
    obtain ⟨hsorted, hentries⟩ := hv
    rw [Value.vectorWellFormed_iff] at hentries
    obtain ⟨_, _, es, -, -, hall, rfl⟩ := encode_vector.mp h
    refine .vector _ (keys_of_entries hall) (List.pairwise_map.mpr hsorted) fun e he => ?_
    obtain ⟨c, hc, hce⟩ := exists_of_forall₂ hall.flip e he
    exact ih c hc (hentries c hc) _ _ _ hce
  | dictionary entries ih =>
    intro i d e h
    obtain ⟨hsorted, hentries⟩ := hv
    rw [Value.fieldsWellFormed_iff] at hentries
    obtain ⟨_, _, es, -, -, hall, rfl⟩ := encode_dictionary.mp h
    refine .dictionary _ (keys_of_entries hall) (List.pairwise_map.mpr hsorted) fun e he => ?_
    obtain ⟨c, hc, hce⟩ := exists_of_forall₂ hall.flip e he
    exact ih c hc (hentries c hc) _ _ _ hce
  | list vs ih =>
    intro i d e h
    have hvs := Value.listWellFormed_iff.mp hv
    obtain ⟨_, es, -, hpack, rfl⟩ := encode_list.mp h
    refine .list (positioned_of_packEach (fun _ _ _ => key_encode) hpack) fun e he => ?_
    obtain ⟨v, hv, p, hp⟩ :=
      exists_of_forall₂ (packEachFrom_positions (fun _ _ _ => key_encode) hpack).2.flip e he
    exact ih v hv (hvs v hv) _ _ _ hp
  | struct r ih =>
    intro i d e h
    obtain ⟨-, s, hs, l, hl, rfl⟩ := encode_struct.mp h
    obtain ⟨hfields, hinside⟩ := listsFields_of_encodeRecord hl (hv.every ih) i
    rw [(hΓ.struct hs).1] at hfields
    exact .struct hs hfields hinside
  | pod r ih =>
    intro i d e h
    obtain ⟨t, -, p, hp, l, hl, rfl⟩ := encode_pod.mp h
    have hr : ∀ r' ∈ [r], r'.Every (Γ.Yields Γ.Canonical) :=
      List.forall_mem_singleton.mpr (hv.every ih)
    have hl : p.encodeArray ([r].map Γ.encodeParts) = .ok l := hl
    obtain ⟨es, rfl, hes⟩ := canonical_podArray hΓ hp hl hr i
    exact hes
  | podArray t rs ih =>
    intro i d e h
    have hrs := Value.recordsWellFormed_iff.mp hv
    obtain ⟨_, -, -, p, hp, l, hl, rfl⟩ := encode_podArray.mp h
    obtain ⟨es, rfl, hes⟩ :=
      canonical_podArray hΓ hp hl (fun r hr => (hrs r hr).every (ih r hr)) i
    exact hes
  | podBlock t dims rs ih =>
    intro i d e h
    have hrs := Value.recordsWellFormed_iff.mp hv.2
    obtain ⟨_, -, -, p, hp, l, hl, rfl⟩ := encode_podBlock.mp h
    obtain ⟨array, harray, rfl⟩ := PodType.encodeBlock_eq_ok.mp hl
    obtain ⟨es, rfl, hes⟩ :=
      canonical_podArray hΓ hp harray (fun r hr => (hrs r hr).every (ih r hr)) (.name arrayName)
    rw [(hΓ.pod hp).1]
    exact .podBlock dims es hp hes
  | named r =>
    intro i d e h
    obtain ⟨t, -, a, ha, l, hl, rfl⟩ := encode_named.mp h
    obtain ⟨es, rfl, hes⟩ := canonical_namedArray hΓ ha hl i
    exact hes
  | namedArray t rs =>
    intro i d e h
    obtain ⟨_, -, -, a, ha, l, hl, rfl⟩ := encode_namedArray.mp h
    obtain ⟨es, rfl, hes⟩ := canonical_namedArray hΓ ha hl i
    exact hes
  | namedBlock t b =>
    intro i d e h
    obtain ⟨_, -, -, a, ha, l, hl, rfl⟩ := encode_namedBlock.mp h
    obtain ⟨array, harray, rfl⟩ := NamedType.encodeBlock_eq_ok.mp hl
    obtain ⟨es, rfl, hes⟩ := canonical_namedArray hΓ ha harray (.name arrayName)
    rw [(hΓ.named ha).1]
    exact .namedBlock b.dims es ha hes

/-- What packing gives is canonical, and the checked constructors rebuild it as it is. -/
theorem pack_canonical (hΓ : Γ.Built) {v : Value} (hv : v.WellFormed) {i : Key} {e : Element}
    (h : (∃ d, Γ.pack i v d = .ok e) ∨ Γ.packAny i v = .ok e) :
    e.rebuild = .ok e ∧ Γ.Canonical e := by
  have hcanonical : Γ.Canonical e := by
    rcases h with ⟨d, h⟩ | h
    · exact yields_canonical hΓ hv i d e h
    · exact yields_canonical hΓ hv i .any e h
  exact ⟨rebuild_of_wellFormed hcanonical.wellFormed, hcanonical⟩

theorem pack_canonical_drive : ∃ e,
    Geo.scope.pack (.name "run") Geo.drive (.struct "geo.Track") = .ok e ∧
      Geo.drive.WellFormed ∧ e.rebuild = .ok e ∧ Geo.scope.Canonical e :=
  ⟨_, rfl, Geo.drive_wellFormed,
    pack_canonical Geo.scope_built Geo.drive_wellFormed (.inl ⟨.struct "geo.Track", rfl⟩)⟩

end Scope

end TypedWire
