import TypedWire.Proofs.Conformance
import TypedWire.Proofs.Repacking
import Mathlib.Data.String.Basic
import Mathlib.Order.Bounds.Basic

namespace TypedWire

theorem least?_eq_min? (xs : List String) : least? xs = xs.min? := by
  cases xs with
  | nil => rfl
  | cons s rest =>
    rw [least?, List.min?_cons']
    congr 2
    funext a b
    rw [min_comm, min_def_lt]

theorem least?_eq_some_iff {xs : List String} {s : String} :
    least? xs = some s ↔ IsLeast {t | t ∈ xs} s := by
  rw [least?_eq_min?, List.min?_eq_some_iff]
  rfl

theorem exists_least? {xs : List String} {s : String} (h : s ∈ xs) :
    ∃ t, least? xs = some t ∧ IsLeast {t | t ∈ xs} t := by
  cases hl : least? xs with
  | none =>
    rw [least?_eq_none_iff.mp hl] at h
    cases h
  | some t => exact ⟨t, rfl, least?_eq_some_iff.mp hl⟩

def Reads (c : NamedChildren Reader) : List Field → List (String × Value) → Prop :=
  List.Forall₂ fun f x => x.1 = f.name ∧
    ∃ r, c.entries.lookup f.name = some r ∧ r.read f.ty = .ok x.2

theorem Reads.take {c c' : NamedChildren Reader} {s : String} {r : Reader}
    (htake : c.take s = .ok (r, c')) {table : List Field} (hs : s ∉ table.map (·.name))
    {fields : List (String × Value)} : Reads c' table fields ↔ Reads c table fields := by
  have hlook : ∀ f ∈ table, c'.entries.lookup f.name = c.entries.lookup f.name := by
    intro f hf
    apply NamedChildren.lookup_take htake
    rintro rfl
    exact hs (List.mem_map_of_mem hf)
  constructor
  · intro h
    apply forall₂_imp_mem h
    intro f hf x hx
    rwa [hlook f hf] at hx
  · intro h
    apply forall₂_imp_mem h
    intro f hf x hx
    rwa [hlook f hf]

theorem decodeFields_eq_ok {table : List Field} (hd : (table.map (·.name)).Nodup)
    {c rest : NamedChildren Reader} {fields : List (String × Value)} :
    decodeFields table c = .ok (fields, rest) ↔
      Reads c table fields ∧ rest = c.without (table.map (·.name)) := by
  induction table generalizing c fields rest with
  | nil =>
    rw [decodeFields, List.map_nil, NamedChildren.without_nil, Reads, List.forall₂_nil_left_iff]
    simp only [Except.ok.injEq, Prod.mk.injEq, eq_comm]
  | cons f table ih =>
    rw [List.map_cons, List.nodup_cons] at hd
    obtain ⟨hf, hd⟩ := hd
    simp only [decodeFields, Checked.bind_eq_ok, Checked.pure_eq_ok, Prod.exists, Prod.mk.injEq,
      ih hd]
    constructor
    · rintro ⟨r, c', htake, v, hv, vs, _, ⟨hvs, rfl⟩, rfl, rfl⟩
      have hr := (NamedChildren.take_eq_ok.mp htake).1
      exact ⟨.cons ⟨rfl, r, hr, hv⟩ ((Reads.take htake hf).mp hvs),
        NamedChildren.without_take htake _⟩
    · rintro ⟨hreads, rfl⟩
      cases hreads with
      | @cons _ x _ vs hx hvs =>
        obtain ⟨hname, r, hr, hv⟩ := hx
        have htake := NamedChildren.take_eq_ok.mpr ⟨hr, rfl⟩
        exact ⟨r, _, htake, x.2, hv, vs, _, ⟨(Reads.take htake hf).mpr hvs, rfl⟩,
          by rw [← hname], NamedChildren.without_take htake _⟩

namespace Scope

/-- What the children of a record have to be: called by distinct names, among them all those that
the table declares, and each of these with a value of its declared type. -/
structure Answers (Γ : Scope) (table : List Field) (items : List Element) : Prop where
  named : ∀ e ∈ items, ∃ s, e.key = .name s
  distinct : (items.map (·.key)).Nodup
  present : ∀ f ∈ table, .name f.name ∈ items.map (·.key)
  decodes : ∀ f ∈ table, ∀ e ∈ items, e.key = .name f.name → ∃ v, Γ.unpack e f.ty = .ok v

def extraChildren (table : List Field) (items : List Element) : Set String :=
  {s | .name s ∈ items.map (·.key) ∧ s ∉ table.map (·.name)}

def extraFields (table : List Field) (r : Record Value) : Set String :=
  {s | s ∈ r.fields.map (·.1) ∧ s ∉ table.map (·.name)}

variable {Γ : Scope} {table : List Field} {items : List Element} {c : NamedChildren Reader}

abbrev Collects (Γ : Scope) (items : List Element) (c : NamedChildren Reader) : Prop :=
  NamedChildren.ofList ((items.map Γ.reader).map fun r => (r.element.key, r)) = .ok c

theorem Collects.read (hc : Γ.Collects items c) {s : String} {d : Ty} {v : Value} :
    (∃ r, c.entries.lookup s = some r ∧ r.read d = .ok v) ↔
      ∃ e ∈ items, e.key = .name s ∧ Γ.unpack e d = .ok v := by
  simp [NamedChildren.lookup_ofList hc, and_assoc]

theorem Answers.exists_collects (h : Γ.Answers table items) : ∃ c, Γ.Collects items c := by
  apply NamedChildren.exists_ofList.mpr
  rw [keys_readers]
  refine ⟨?_, h.distinct⟩
  simpa using h.named

theorem Answers.exists_reads (h : Γ.Answers table items) (hc : Γ.Collects items c) :
    ∃ fields, Reads c table fields := by
  apply exists_forall₂
  intro f hf
  obtain ⟨e, he, hkey⟩ := List.mem_map.mp (h.present f hf)
  obtain ⟨v, hv⟩ := h.decodes f hf e he hkey
  exact ⟨(f.name, v), rfl, hc.read.mpr ⟨e, he, hkey, hv⟩⟩

theorem answers_of_reads (hc : Γ.Collects items c) {fields : List (String × Value)}
    (h : Reads c table fields) : Γ.Answers table items := by
  obtain ⟨hnamed, hd⟩ := NamedChildren.exists_ofList.mp ⟨c, hc⟩
  rw [keys_readers] at hd
  have hread : ∀ f ∈ table, ∃ e ∈ items, e.key = .name f.name ∧ ∃ v, Γ.unpack e f.ty = .ok v := by
    intro f hf
    obtain ⟨x, -, -, hx⟩ := exists_of_forall₂ h f hf
    obtain ⟨e, he, hkey, hv⟩ := hc.read.mp hx
    exact ⟨e, he, hkey, x.2, hv⟩
  refine ⟨by simpa using hnamed, hd, ?_, ?_⟩
  · intro f hf
    obtain ⟨e, he, hkey, -⟩ := hread f hf
    exact List.mem_map.mpr ⟨e, he, hkey⟩
  · intro f hf e he hkey
    obtain ⟨e', he', hkey', hv⟩ := hread f hf
    rwa [List.inj_on_of_nodup_map hd he he' (hkey.trans hkey'.symm)]

theorem names_of_reads {fields : List (String × Value)} (h : Reads c table fields) :
    fields.map (·.1) = table.map (·.name) :=
  map_eq_map_iff_forall₂.mpr (h.flip.imp fun _ _ hx => hx.1)

theorem field?_of_reads (hd : (table.map (·.name)).Nodup) (hc : Γ.Collects items c)
    {fields : List (String × Value)} (h : Reads c table fields) {t s : String} {v : Value} :
    Record.field? ⟨t, Entries.ofList fields⟩ s = some v ↔
      ∃ f ∈ table, f.name = s ∧ ∃ e ∈ items, e.key = .name s ∧ Γ.unpack e f.ty = .ok v := by
  have hfields : (fields.map (·.1)).Nodup := names_of_reads h ▸ hd
  rw [Record.field?, Entries.get?_ofList_self hfields, Entries.get?_eq_some_iff hfields]
  constructor
  · intro hmem
    obtain ⟨f, hf, rfl, hread⟩ := exists_of_forall₂ h.flip _ hmem
    exact ⟨f, hf, rfl, hc.read.mp hread⟩
  · rintro ⟨f, hf, rfl, hread⟩
    obtain ⟨r, hr, hv⟩ := hc.read.mpr hread
    obtain ⟨⟨_, w⟩, hmem, rfl, r', hr', hw⟩ := exists_of_forall₂ h f hf
    -- Under one name there is one child.
    cases hr.symm.trans hr'
    cases hv.symm.trans hw
    exact hmem

theorem mem_left_over (hc : Γ.Collects items c) {s : String} :
    s ∈ (c.without (table.map (·.name))).entries.map (·.1) ↔ s ∈ extraChildren table items := by
  rw [NamedChildren.mem_without, NamedChildren.mem_ofList hc, keys_readers]
  rfl

theorem decodeRecord_collects (hc : Γ.Collects items c) (what t : String) :
    decodeRecord what t table ⟨.struct, some t, items.map Γ.reader⟩ = (do
      let (fields, rest) ← decodeFields table c
      rest.expectNone
      return ⟨t, Entries.ofList fields⟩) := by
  rw [decodeRecord, show NamedChildren.ofList _ = _ from hc]
  simp only [Container.expectKind, Container.expectType, if_true]
  rfl

theorem decodeRecord_eq_ok (hd : (table.map (·.name)).Nodup) {what t : String}
    {r : Record Value} :
    decodeRecord what t table ⟨.struct, some t, items.map Γ.reader⟩ = .ok r ↔
      ∃ c, Γ.Collects items c ∧ ∃ fields, Reads c table fields ∧
        extraChildren table items = ∅ ∧ ⟨t, Entries.ofList fields⟩ = r := by
  simp only [decodeRecord, Checked.bind_eq_ok, Checked.exists_unit, Container.expectKind_eq_ok,
    Container.expectType_eq_ok, true_and, Prod.exists, decodeFields_eq_ok hd, Checked.pure_eq_ok,
    NamedChildren.expectNone_eq_ok]
  apply exists_congr
  intro c
  apply and_congr_right
  intro hc
  have hempty : (c.without (table.map (·.name))).entries = [] ↔ extraChildren table items = ∅ := by
    rw [← List.map_eq_nil_iff (f := Prod.fst), List.eq_nil_iff_forall_not_mem,
      Set.eq_empty_iff_forall_notMem]
    simp only [mem_left_over hc]
  constructor
  · rintro ⟨fields, _, ⟨hreads, rfl⟩, hnone, rfl⟩
    exact ⟨fields, hreads, hempty.mp hnone, rfl⟩
  · rintro ⟨fields, hreads, hextra, rfl⟩
    exact ⟨fields, _, ⟨hreads, rfl⟩, hempty.mpr hextra, rfl⟩

theorem decodeRecord_extra (hd : (table.map (·.name)).Nodup) (what t : String)
    (h : Γ.Answers table items) (hextra : (extraChildren table items).Nonempty) :
    ∃ s, IsLeast (extraChildren table items) s ∧
      decodeRecord what t table ⟨.struct, some t, items.map Γ.reader⟩ =
        .error (.unexpectedElement s) := by
  obtain ⟨c, hc⟩ := h.exists_collects
  obtain ⟨fields, hreads⟩ := h.exists_reads hc
  have hleft : {s | s ∈ (c.without (table.map (·.name))).entries.map (·.1)} =
      extraChildren table items := Set.ext fun s => mem_left_over hc
  obtain ⟨x, hx⟩ := hextra
  obtain ⟨s, hs, hleast⟩ := exists_least? ((mem_left_over hc).mpr hx)
  refine ⟨s, hleft ▸ hleast, ?_⟩
  rw [decodeRecord_collects hc, (decodeFields_eq_ok hd).mpr ⟨hreads, rfl⟩]
  change ((c.without (table.map (·.name))).expectNone >>= fun _ => _) = _
  rw [NamedChildren.expectNone, hs]
  rfl

theorem encodeFields_extra {r : Record Value} (hextra : (extraFields table r).Nonempty) :
    ∃ s, IsLeast (extraFields table r) s ∧
      encodeFields table (Γ.encodeParts r).fields = .error (.unexpectedElement s) := by
  have hextras : {s | s ∈ ((Γ.encodeParts r).fields.map (·.1)).filter
      fun s => !table.any (·.name = s)} = extraFields table r := by
    ext s
    simp [fields_encodeParts, extraFields, Function.comp_def]
  rw [← hextras] at hextra ⊢
  obtain ⟨x, hx⟩ := hextra
  obtain ⟨s, hs, hleast⟩ := exists_least? hx
  refine ⟨s, hleast, ?_⟩
  simp only [encodeFields, hs]

/-- The codec of a table accounts for every field: when it reads, for each child that there is, and
when it writes, for each field of the value. -/
structure Accounts (Γ : Scope) (t : String) (table : List Field)
    (decode : Container Reader → Checked (Record Value)) : Prop where
  decodes : ∀ items : List Element, (∃ r, decode ⟨.struct, some t, items.map Γ.reader⟩ = .ok r) ↔
    Γ.Answers table items ∧ extraChildren table items = ∅
  decoded : ∀ (items : List Element) r, decode ⟨.struct, some t, items.map Γ.reader⟩ = .ok r →
    r.typeName = t ∧ Entries.Sorted r.fields ∧ ∀ s v, r.field? s = some v ↔
      ∃ f ∈ table, f.name = s ∧ ∃ e ∈ items, e.key = .name s ∧ Γ.unpack e f.ty = .ok v
  decode_extra : ∀ items : List Element, Γ.Answers table items →
    (extraChildren table items).Nonempty → ∃ s, IsLeast (extraChildren table items) s ∧
      decode ⟨.struct, some t, items.map Γ.reader⟩ = .error (.unexpectedElement s)
  encodes : ∀ r : Record Value, (∃ es, encodeFields table (Γ.encodeParts r).fields = .ok es) ↔
    r.HasFields table ∧ ∀ f ∈ table, ∀ v, r.field? f.name = some v →
      ∃ e, Γ.pack (.name f.name) v f.ty = .ok e
  encoded : ∀ (r : Record Value) es, encodeFields table (Γ.encodeParts r).fields = .ok es →
    List.Forall₂ (fun f e => e.key = .name f.name ∧
      ∃ v, r.field? f.name = some v ∧ Γ.pack (.name f.name) v f.ty = .ok e) table es
  encode_extra : ∀ r : Record Value, (extraFields table r).Nonempty →
    ∃ s, IsLeast (extraFields table r) s ∧
      encodeFields table (Γ.encodeParts r).fields = .error (.unexpectedElement s)

theorem accounts (hd : (table.map (·.name)).Nodup) (what t : String) :
    Γ.Accounts t table (decodeRecord what t table) where
  decodes items := by
    simp only [decodeRecord_eq_ok hd]
    constructor
    · rintro ⟨_, c, hc, fields, hreads, hextra, -⟩
      exact ⟨answers_of_reads hc hreads, hextra⟩
    · rintro ⟨h, hextra⟩
      obtain ⟨c, hc⟩ := h.exists_collects
      obtain ⟨fields, hreads⟩ := h.exists_reads hc
      exact ⟨_, c, hc, fields, hreads, hextra, rfl⟩
  decoded items r h := by
    obtain ⟨c, hc, fields, hreads, -, rfl⟩ := (decodeRecord_eq_ok hd).mp h
    exact ⟨rfl, Entries.sorted_ofList fields, fun _ _ => field?_of_reads hd hc hreads⟩
  decode_extra items h hextra := decodeRecord_extra hd what t h hextra
  encodes r := exists_encodeFields
  encoded r es h := by
    rw [fields_encodeParts] at h
    obtain ⟨-, hall⟩ := encodeFields_eq_ok.mp h
    apply hall.imp
    rintro f e ⟨enc, henc, he⟩
    rw [Entries.get?_map, Option.map_eq_some_iff] at henc
    obtain ⟨v, hv, rfl⟩ := henc
    exact ⟨key_encode he, v, hv, he⟩
  encode_extra r hextra := encodeFields_extra hextra

/-- Every table of distinct names, and so every structure and every pod that can be built, has its
fields accounted for. -/
theorem fields_accounted (Γ : Scope) :
    (∀ what t table, (table.map Field.name).Nodup →
      Γ.Accounts t table (decodeRecord what t table)) ∧
    (∀ d : StructType, d.Built → Γ.Accounts d.typeName d.fields d.decode) ∧
    ∀ d : PodType, d.Built → Γ.Accounts d.typeName d.fields d.decodeOne :=
  ⟨fun what t _ hd => accounts hd what t, fun _ hd => accounts hd.distinct _ _,
    fun _ hd => accounts hd.distinct _ _⟩

theorem fields_accounted_geo : Geo.track.Built ∧ Geo.point.Built ∧
    Geo.scope.Accounts Geo.track.typeName Geo.track.fields Geo.track.decode ∧
    Geo.scope.Accounts Geo.point.typeName Geo.point.fields Geo.point.decodeOne ∧
      let items := [Geo.numberUnder "z" 3, Geo.numberUnder "y" 2, Geo.numberUnder "at" 4,
        Geo.numberUnder "x" 1]
      Geo.point.decodeOne ⟨.struct, some "geo.Point", items.map Geo.scope.reader⟩ =
        .error (.unexpectedElement "at") :=
  ⟨Geo.track_built, Geo.point_built, (fields_accounted Geo.scope).2.1 Geo.track Geo.track_built,
    (fields_accounted Geo.scope).2.2 Geo.point Geo.point_built, rfl⟩

end Scope

end TypedWire
