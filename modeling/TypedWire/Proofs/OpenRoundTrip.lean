import TypedWire.Proofs.RoundTrip

namespace TypedWire

namespace Scope

variable {Γ : Scope} {i : Key} {d : Ty} {e : Element} {v : Value}

def PacksNormal (Γ : Scope) (v : Value) : Prop :=
  ∀ i d e, Γ.encode v i d = .ok e → Γ.encode (Γ.normal v d) i d = .ok e

theorem encodeRecord_normal {r : Record Value} {t : String} {table : List Field}
    {l : Container Element} (hd : (table.map (·.name)).Nodup) (hr : r.Every Γ.PacksNormal)
    (h : encodeRecord t table (Γ.encodeParts r) = .ok l) :
    encodeRecord t table (Γ.encodeParts ⟨r.typeName, Γ.normalFields table r.fields⟩) = .ok l := by
  obtain ⟨hname, hne, es, hes, rfl⟩ := encodeRecord_eq_ok.mp h
  obtain ⟨hdecl, hall⟩ := encodeFields_eq_ok.mp hes
  rw [fields_encodeParts] at hdecl hall
  rw [typeName_encodeParts] at hname
  refine encodeRecord_eq_ok.mpr ⟨by rw [typeName_encodeParts, hname], hne, es, ?_, rfl⟩
  rw [fields_encodeParts]
  refine encodeFields_eq_ok.mpr ⟨?_, ?_⟩
  · intro x hx
    obtain ⟨y, hy, rfl⟩ := List.mem_map.mp hx
    rw [normalFields_eq] at hy
    obtain ⟨z, hz, rfl⟩ := List.mem_map.mp hy
    exact hdecl (z.1, Γ.encode z.2) (List.mem_map_of_mem hz)
  · apply forall₂_imp_mem hall
    rintro f hf e ⟨enc, henc, he⟩
    rw [Entries.get?_map, Option.map_eq_some_iff] at henc
    obtain ⟨v, hv, rfl⟩ := henc
    refine ⟨Γ.encode (Γ.normal v f.ty), ?_, hr _ (Entries.mem_of_get? hv) _ _ _ he⟩
    rw [Entries.get?_map, get?_normalFields hd hf, hv]
    rfl

theorem packsNormal (hΓ : Γ.Built) (v : Value) : Γ.PacksNormal v := by
  induction v with
  | scalar s =>
    intro i d e h
    obtain ⟨hown, rfl⟩ := encode_scalar.mp h
    by_cases hd : d = .any
    · subst hd
      exact encode_array.mpr ⟨.free, rfl, rfl, rfl⟩
    · obtain rfl := Ty.eq_of_orOwn hd hown
      exact h
  | enum t n =>
    intro i d e h
    obtain ⟨hown, rfl⟩ := encode_enum.mp h
    by_cases hd : d = .any
    · subst hd
      exact encode_array.mpr ⟨.free, rfl, rfl, rfl⟩
    · obtain rfl := Ty.eq_of_orOwn hd hown
      exact h
  | vector es ih =>
    intro i d e h
    obtain ⟨key, value, items, hown, hk, hall, rfl⟩ := encode_vector.mp h
    rw [normal_vector hown]
    refine encode_vector.mpr ⟨key, value, items, hown, hk, ?_, rfl⟩
    rw [List.forall₂_map_left_iff]
    apply forall₂_imp_mem hall
    intro c hc x hx
    exact ih c hc _ _ _ hx
  | dictionary es ih =>
    intro i d e h
    obtain ⟨key, value, items, hown, hk, hall, rfl⟩ := encode_dictionary.mp h
    rw [normal_dictionary hown]
    refine encode_dictionary.mpr ⟨key, value, items, hown, hk, ?_, rfl⟩
    rw [List.forall₂_map_left_iff]
    apply forall₂_imp_mem hall
    intro c hc x hx
    exact ih c hc _ _ _ hx
  | list vs ih =>
    intro i d e h
    obtain ⟨item, items, hown, hpack, rfl⟩ := encode_list.mp h
    rw [normal_list hown]
    refine encode_list.mpr ⟨item, items, hown, ?_, rfl⟩
    rw [packEach, packEachFrom_map]
    exact packEachFrom_mono (fun v hv p x hx => ih v hv _ _ _ hx) hpack
  | struct r ih =>
    intro i d e h
    obtain ⟨hown, s, hs, l, hl, rfl⟩ := encode_struct.mp h
    rw [normal_struct hown hs]
    exact encode_struct.mpr ⟨hown, s, hs, l,
      encodeRecord_normal (hΓ.struct hs).2.distinct ih hl, rfl⟩
  | pod r =>
    intro i d e h
    obtain ⟨t, hown, p, hp, l, hl, rfl⟩ := encode_pod.mp h
    by_cases hd : d = .any
    · subst hd
      cases hown
      exact encode_podArray.mpr ⟨.free, rfl, rfl, p, hp, l, hl, rfl⟩
    · obtain rfl := Ty.eq_of_orOwn hd hown
      exact h
  | named r =>
    intro i d e h
    obtain ⟨t, hown, a, ha, l, hl, rfl⟩ := encode_named.mp h
    by_cases hd : d = .any
    · subst hd
      cases hown
      exact encode_namedArray.mpr ⟨.free, rfl, rfl, a, ha, l, hl, rfl⟩
    · obtain rfl := Ty.eq_of_orOwn hd hown
      exact h
  | _ =>
    intro i d e h
    simpa only [normal] using h

/-- The round trip under an open type, with the normal form a normal form indeed: it has none but
itself. -/
theorem unpackAny_packAny (hΓ : Γ.Built) :
    (∀ v, Γ.normal (Γ.normal v .any) .any = Γ.normal v .any) ∧
      ∀ v, v.WellFormed → ∀ i e, Γ.packAny i v = .ok e →
        Γ.unpackAny e = .ok (Γ.normal v .any) ∧ Γ.packAny i (Γ.normal v .any) = .ok e := by
  constructor
  · intro v
    exact normal_normal v .any
  · intro v hv i e h
    exact ⟨returns hΓ hv i .any e h, packsNormal hΓ v i .any e h⟩

end Scope

namespace Geo

def entry : StructType :=
  ⟨"geo.Entry", [⟨"at", .pod "geo.Point" .single⟩, ⟨"about", .any⟩, ⟨"marks", .map .text .any⟩]⟩

def journal : Scope := .ofService .empty ⟨"geo", [("Entry", entry)], [("Point", point)], []⟩

theorem journal_built : journal.Built := by
  have hentry : entry.Built := ⟨entry.typeName, entry.fields, rfl⟩
  exact .ofService .empty (.make (by simpa using hentry) (by simpa using point_built) (by simp)
    (show Service.make "geo" [entry] [point] [] = .ok _ from rfl))

def entryAbout (about mark : Value) : Value :=
  .struct ⟨"geo.Entry", [("about", about), ("at", .pod (pointAt 1 2)),
    ("marks", .dictionary [("state", mark)])]⟩

def comment (about mark : Value) : Value := entryAbout (entryAbout about mark) mark

def asMade : Value := comment (.pod (pointAt 3 4)) (.enum "geo.State" 2)

def asRead : Value := comment (.podArray "geo.Point" [pointAt 3 4]) (.array ⟨.int32, [.ofInt32 2]⟩)

theorem asMade_wellFormed : asMade.WellFormed := by
  simp only [asMade, comment, entryAbout, pointAt, Value.WellFormed, Value.RecordWellFormed,
    Value.FieldsWellFormed, and_true]
  decide

theorem unpackAny_packAny_comment : ∃ e, journal.packAny (.index 7) asMade = .ok e ∧
    journal.unpackAny e = .ok asRead ∧ journal.packAny (.index 7) asRead = .ok e := by
  obtain ⟨e, he⟩ : ∃ e, journal.packAny (.index 7) asMade = .ok e := ⟨_, rfl⟩
  obtain ⟨hback, hagain⟩ := (Scope.unpackAny_packAny journal_built).2 _ asMade_wellFormed _ e he
  exact ⟨e, he, hback, hagain⟩

end Geo

end TypedWire
