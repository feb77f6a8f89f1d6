import TypedWire.Proofs.Built
import TypedWire.Proofs.Packing

namespace TypedWire

theorem PodType.typeName_of_encodeArray {p : PodType} {rs : List (Record Encoder)}
    {l : Container Element} (h : p.encodeArray rs = .ok l) : ∀ r ∈ rs, p.typeName = r.typeName := by
  obtain ⟨-, es, hes, -⟩ := encodeArray_eq_ok.mp h
  intro r hr
  obtain ⟨i, e, he⟩ := packEachFrom_mem hes r hr
  simp only [Checked.bind_eq_ok] at he
  obtain ⟨one, hone, -⟩ := he
  exact (encodeRecord_eq_ok.mp hone).1

namespace Scope

variable {Γ : Scope} {i : Key} {d : Ty} {e : Element} {v : Value}

theorem encode_any (hΓ : Γ.Built) (h : Γ.encode v i d = .ok e) : Γ.encode v i .any = .ok e := by
  induction v generalizing i d e with
  | null =>
    obtain ⟨-, rfl⟩ := encode_null.mp h
    exact encode_null.mpr ⟨trivial, rfl⟩
  | scalar s =>
    obtain ⟨-, rfl⟩ := encode_scalar.mp h
    exact encode_scalar.mpr ⟨rfl, rfl⟩
  | array a =>
    obtain ⟨_, -, -, rfl⟩ := encode_array.mp h
    exact encode_array.mpr ⟨.free, rfl, rfl, rfl⟩
  | block k b =>
    obtain ⟨_, -, -, rfl⟩ := encode_block.mp h
    exact encode_block.mpr ⟨none, rfl, rfl, rfl⟩
  | text s =>
    obtain ⟨-, rfl⟩ := encode_text.mp h
    exact encode_text.mpr ⟨rfl, rfl⟩
  | enum t n =>
    obtain ⟨-, rfl⟩ := encode_enum.mp h
    exact encode_enum.mpr ⟨rfl, rfl⟩
  | vector es ih =>
    obtain ⟨_, value, items, -, -, hall, rfl⟩ := encode_vector.mp h
    refine encode_vector.mpr ⟨_, _, items, rfl, rfl, ?_, rfl⟩
    apply forall₂_imp_mem hall
    intro c hc x hx
    exact ih c hc hx
  | dictionary es ih =>
    obtain ⟨_, value, items, -, -, hall, rfl⟩ := encode_dictionary.mp h
    refine encode_dictionary.mpr ⟨_, _, items, rfl, rfl, ?_, rfl⟩
    apply forall₂_imp_mem hall
    intro c hc x hx
    exact ih c hc hx
  | list vs ih =>
    obtain ⟨item, items, -, hpack, rfl⟩ := encode_list.mp h
    refine encode_list.mpr ⟨_, items, rfl, ?_, rfl⟩
    exact packEachFrom_mono (fun v hv p x hx => ih v hv hx) hpack
  | struct r =>
    obtain ⟨-, s, hs, l, hl, rfl⟩ := encode_struct.mp h
    exact encode_struct.mpr ⟨rfl, s, hs, l, hl, rfl⟩
  | pod r =>
    obtain ⟨t, -, p, hp, l, hl, rfl⟩ := encode_pod.mp h
    -- The definition goes by the declared name, and the record by that of the definition.
    have hname : t = r.typeName := by
      rw [← (hΓ.pod hp).1]
      simpa using PodType.typeName_of_encodeArray hl _ List.mem_cons_self
    exact encode_pod.mpr ⟨r.typeName, rfl, p, hname ▸ hp, l, hl, rfl⟩
  | podArray t rs =>
    obtain ⟨_, -, -, p, hp, l, hl, rfl⟩ := encode_podArray.mp h
    exact encode_podArray.mpr ⟨.free, rfl, rfl, p, hp, l, hl, rfl⟩
  | podBlock t dims rs =>
    obtain ⟨_, -, -, p, hp, l, hl, rfl⟩ := encode_podBlock.mp h
    exact encode_podBlock.mpr ⟨none, rfl, rfl, p, hp, l, hl, rfl⟩
  | named r =>
    obtain ⟨t, -, a, ha, l, hl, rfl⟩ := encode_named.mp h
    have hname : t = r.typeName := by
      obtain ⟨-, hr, -⟩ := NamedType.encodeArray_eq_ok.mp hl
      rw [← (hΓ.named ha).1]
      exact (NamedType.expectRecord_eq_ok.mp (hr r List.mem_cons_self)).1.symm
    exact encode_named.mpr ⟨r.typeName, rfl, a, hname ▸ ha, l, hl, rfl⟩
  | namedArray t rs =>
    obtain ⟨_, -, -, a, ha, l, hl, rfl⟩ := encode_namedArray.mp h
    exact encode_namedArray.mpr ⟨.free, rfl, rfl, a, ha, l, hl, rfl⟩
  | namedBlock t b =>
    obtain ⟨_, -, -, a, ha, l, hl, rfl⟩ := encode_namedBlock.mp h
    exact encode_namedBlock.mpr ⟨none, rfl, rfl, a, ha, l, hl, rfl⟩

/-- A value packs into one element only, whatever types it is packed under. -/
theorem pack_independent (hΓ : Γ.Built) (h : Γ.pack i v d = .ok e) :
    Γ.packAny i v = .ok e ∧ ∀ d' e', Γ.pack i v d' = .ok e' → e' = e := by
  have hany : Γ.packAny i v = .ok e := encode_any hΓ h
  constructor
  · exact hany
  · intro d' e' h'
    have hany' : Γ.packAny i v = .ok e' := encode_any hΓ h'
    rw [hany] at hany'
    exact (Except.ok.inj hany').symm

theorem pack_independent_points : ∃ e,
    let points := Value.list [.pod (Geo.pointAt 1 2), .pod (Geo.pointAt 3 4)]
    Geo.scope.pack (.index 0) points (.list (.pod "geo.Point" .single)) = .ok e ∧
      Geo.scope.packAny (.index 0) points = .ok e :=
  ⟨_, rfl, (pack_independent (d := .list (.pod "geo.Point" .single)) Geo.scope_built rfl).1⟩

end Scope

end TypedWire
