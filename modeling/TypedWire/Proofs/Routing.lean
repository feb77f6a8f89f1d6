import TypedWire.Proofs.Built
import TypedWire.Proofs.Parts

namespace TypedWire

/-- The service that has the types of a namespace, before one service of its own and a registry. -/
inductive Owns (own : Service) (r : Registry) : (ns : String) → Service → Prop
  | own : Owns own r own.name own
  | registered {ns s} : ns ≠ own.name → r.get? ns = some s → Owns own r ns s

structure LooksUp {δ : Type} (owns : String → Service → Prop) (find : Service → String → Option δ)
    (typeName : δ → String) (q : String) (found : Checked δ) : Prop where
  ok_iff : ∀ d, found = .ok d ↔
    ∃ ns name s, Qualifies ns name q ∧ owns ns s ∧ find s name = some d
  typeName_eq : ∀ d, found = .ok d → typeName d = q
  error_eq : ∀ e, found = .error e → e = .serviceTypeNotFound q

namespace Scope

variable {Γ Γ' : Scope}

section Owners

theorem service?_eq_some_iff {own : Service} (hown : Γ.own? = some own) {ns : String}
    {s : Service} : Γ.service? ns = some s ↔ Owns own Γ.registry ns s := by
  simp only [service?, hown]
  by_cases hns : own.name = ns
  · subst hns
    rw [if_pos rfl]
    constructor
    · rintro ⟨⟩
      exact .own
    · rintro (_ | ⟨hne, -⟩)
      · rfl
      · exact absurd rfl hne
  · rw [if_neg hns]
    constructor
    · exact .registered (Ne.symm hns)
    · rintro (_ | ⟨-, hs⟩)
      · exact absurd rfl hns
      · exact hs

theorem eq_of_definition {δ : Type} {find : Service → String → Option δ} {q : String}
    {e : WireError} (h : Γ.definition find q = .error e) : e = .serviceTypeNotFound q := by
  rcases Checked.bind_eq_error.mp h with hq | ⟨⟨ns, name⟩, -, h⟩
  · exact eq_of_splitName hq
  · dsimp only at h
    split at h
    · cases h
    · cases h
      rfl

theorem looksUp {own : Service} (hown : Γ.own? = some own) {δ : Type}
    {find : Service → String → Option δ} {typeName : δ → String} {q : String}
    (hname : ∀ d, Γ.definition find q = .ok d → typeName d = q) :
    LooksUp (Owns own Γ.registry) find typeName q (Γ.definition find q) where
  ok_iff d := by simp only [definition_eq_ok, splitName_iff, service?_eq_some_iff hown]
  typeName_eq := hname
  error_eq _ := eq_of_definition

theorem service?_shadowed {own : Service} {r r' : Registry}
    (h : ∀ ns, ns ≠ own.name → r.get? ns = r'.get? ns) (ns : String) :
    (ofService r own).service? ns = (ofService r' own).service? ns := by
  by_cases hns : own.name = ns
  · simp only [service?, ofService, if_pos hns]
  · simp only [service?, ofService, if_neg hns, h ns (Ne.symm hns)]

end Owners

section Congr

variable (h : ∀ ns, Γ.service? ns = Γ'.service? ns)

include h

theorem definition_congr {δ : Type} (find : Service → String → Option δ) (q : String) :
    Γ.definition find q = Γ'.definition find q := by
  simp only [definition, h]

theorem encodePods_congr (d : Ty) (v : Value) (rs : Block (Record Encoder)) :
    Γ.encodePods d v rs = Γ'.encodePods d v rs := by
  have hpod : Γ.pod = Γ'.pod := funext fun q => definition_congr h _ q
  unfold encodePods
  rw [hpod]

theorem encodeNamed_congr (d : Ty) (v : Value) : Γ.encodeNamed d v = Γ'.encodeNamed d v := by
  have hnamed : Γ.named = Γ'.named := funext fun q => definition_congr h _ q
  unfold encodeNamed
  rw [hnamed]

theorem encode_congr (v : Value) : Γ.encode v = Γ'.encode v := by
  have hrecord {r : Record Value} (ih : r.Every fun v => Γ.encode v = Γ'.encode v) :
      Γ.encodeParts r = Γ'.encodeParts r := by
    rw [encodeParts, encodeParts, encodeNamedValues_eq, encodeNamedValues_eq]
    congr 1
    exact List.map_congr_left fun f hf => by rw [ih f hf]
  have hrecords {rs : List (Record Value)}
      (ih : ∀ r ∈ rs, r.Every fun v => Γ.encode v = Γ'.encode v) :
      Γ.encodeAllParts rs = Γ'.encodeAllParts rs := by
    rw [encodeAllParts_eq, encodeAllParts_eq]
    exact List.map_congr_left fun r hr => hrecord (ih r hr)
  induction v with
  | vector es ih =>
    have hparts : Γ.encodeVector es = Γ'.encodeVector es := by
      rw [encodeVector_eq, encodeVector_eq]
      exact List.map_congr_left fun e he => by rw [ih e he]
    simp only [encode, hparts]
  | dictionary es ih =>
    have hparts : Γ.encodeNamedValues es = Γ'.encodeNamedValues es := by
      rw [encodeNamedValues_eq, encodeNamedValues_eq]
      exact List.map_congr_left fun e he => by rw [ih e he]
    simp only [encode, hparts]
  | list vs ih =>
    have hparts : Γ.encodeValues vs = Γ'.encodeValues vs := by
      rw [encodeValues_eq, encodeValues_eq]
      exact List.map_congr_left fun v hv => ih v hv
    simp only [encode, hparts]
  | struct r ih =>
    have hstruct : Γ.struct = Γ'.struct := funext fun q => definition_congr h _ q
    simp only [encode, hrecord ih, hstruct]
  | pod r ih => simp only [encode, hrecord ih, encodePods_congr h]
  | podArray t rs ih => simp only [encode, hrecords ih, encodePods_congr h]
  | podBlock t dims rs ih => simp only [encode, hrecords ih, encodePods_congr h]
  | named r => simp only [encode, encodeNamed_congr h]
  | namedArray t rs => simp only [encode, encodeNamed_congr h]
  | namedBlock t b => simp only [encode, encodeNamed_congr h]
  | _ => rfl

theorem decodeWith_congr (e : Element) (cs : List Reader) :
    Γ.decodeWith e cs = Γ'.decodeWith e cs := by
  have hstruct : Γ.struct = Γ'.struct := funext fun q => definition_congr h _ q
  have hpod : Γ.pod = Γ'.pod := funext fun q => definition_congr h _ q
  have hnamed : Γ.named = Γ'.named := funext fun q => definition_congr h _ q
  have has : Γ.decodeAs e cs = Γ'.decodeAs e cs := by
    funext d
    cases d with
    | struct t => simp only [decodeAs, hstruct]
    | pod t shape => simp only [decodeAs, decodePods, hpod]
    | named t shape => simp only [decodeAs, decodeNamed, hnamed]
    | _ => rfl
  funext d
  simp only [decodeWith, has]

theorem reader_congr (e : Element) : Γ.reader e = Γ'.reader e := by
  induction e with
  | void i => simp only [reader, decodeWith_congr h]
  | flat i form bytes => simp only [reader, decodeWith_congr h]
  | nested i kind t es ih =>
    have hparts : Γ.readers es = Γ'.readers es := by
      rw [readers_eq, readers_eq]
      exact List.map_congr_left ih
    simp only [reader, hparts, decodeWith_congr h]

end Congr

/-- A scope with a service of its own asks the owner of a name, in each of the three roles; another
registry in its place changes nothing as long as it agrees on the other namespaces. -/
theorem routed (hΓ : Γ.Built) {own : Service} (hown : Γ.own? = some own) :
    (∀ q, LooksUp (Owns own Γ.registry) Service.struct? StructType.typeName q (Γ.struct q) ∧
      LooksUp (Owns own Γ.registry) Service.pod? PodType.typeName q (Γ.pod q) ∧
      LooksUp (Owns own Γ.registry) Service.named? NamedType.typeName q (Γ.named q)) ∧
    ∀ r r' : Registry, (∀ ns, ns ≠ own.name → r.get? ns = r'.get? ns) →
      (∀ i v d, (ofService r own).pack i v d = (ofService r' own).pack i v d) ∧
      (∀ e d, (ofService r own).unpack e d = (ofService r' own).unpack e d) ∧
      (∀ i v, (ofService r own).packAny i v = (ofService r' own).packAny i v) ∧
      ∀ e, (ofService r own).unpackAny e = (ofService r' own).unpackAny e := by
  constructor
  · intro q
    exact ⟨looksUp hown fun d hd => (hΓ.struct hd).1, looksUp hown fun d hd => (hΓ.pod hd).1,
      looksUp hown fun d hd => (hΓ.named hd).1⟩
  · intro r r' h
    have hencode := encode_congr (service?_shadowed h)
    have hreader := reader_congr (service?_shadowed h)
    refine ⟨?_, ?_, ?_, ?_⟩
    · intro i v d
      rw [pack, pack, hencode]
    · intro e d
      rw [unpack, unpack, hreader]
    · intro i v
      rw [packAny, packAny, hencode]
    · intro e
      rw [unpackAny, unpackAny, unpack, unpack, hreader]

theorem routed_drive : ∃ e,
    Geo.scope.struct "geo.Track" = .ok Geo.track ∧
      (ofService .empty Geo.service).pack (.name "run") Geo.drive (.struct "geo.Track") = .ok e ∧
      (ofService ⟨[⟨"geo", [], [], []⟩]⟩ Geo.service).pack (.name "run") Geo.drive
        (.struct "geo.Track") = .ok e := by
  have hgeo : Qualifies "geo" "Track" "geo.Track" := splitName_iff.mp rfl
  have hshadow : ∀ ns, ns ≠ Geo.service.name →
      Registry.get? ⟨[⟨"geo", [], [], []⟩]⟩ ns = Registry.empty.get? ns := by
    intro ns hns
    simp only [Registry.get?, Registry.empty, List.find?_cons, List.find?_nil,
      decide_eq_false (Ne.symm hns : "geo" ≠ ns)]
  obtain ⟨hfound, hsame⟩ := routed Geo.scope_built (rfl : Geo.scope.own? = some Geo.service)
  refine ⟨_, ?_, rfl, ?_⟩
  · exact ((hfound "geo.Track").1.ok_iff Geo.track).mpr ⟨"geo", "Track", _, hgeo, .own, rfl⟩
  · exact (hsame _ _ hshadow).1 (.name "run") Geo.drive (.struct "geo.Track")

end Scope

end TypedWire
