import TypedWire.Proofs.Layouts

namespace TypedWire

open Element

namespace Scope

variable (Γ : Scope)

def room : Ty → Nat
  | .scalar k => k.width
  | .array k len => (Shape.array len).recordCount?.getD 0 * k.width
  | .block k dims => (Shape.block dims).recordCount?.getD 0 * k.width
  | .pod t shape =>
    match Γ.pod t with
    | .ok d => shape.recordCount?.getD 0 * d.size
    | .error _ => 0
  | .named t shape =>
    match Γ.named t with
    | .ok d => shape.recordCount?.getD 0 * d.bytes
    | .error _ => 0
  | _ => 0

/-- The value leaves nothing out that the type has room for. -/
inductive Full : Ty → Value → Prop
  | void {ty} : Γ.room ty = 0 → Full ty .null
  | scalar {k v} : v ≠ .null → Full (.scalar k) v
  | array {k len v} : v ≠ .null → Full (.array k len) v
  | block {k dims v} : v ≠ .null → Full (.block k dims) v
  | named {t shape v} : v ≠ .null → Full (.named t shape) v
  | pods {t shape v d} : v ≠ .null → Γ.pod t = .ok d →
      (∀ r ∈ v.podRecords, ∀ f ∈ d.fields, ∀ w, r.field? f.name = some w → Full f.ty w) →
      Full (.pod t shape) v

def FullRecord (d : PodType) (r : Record Value) : Prop :=
  ∀ f ∈ d.fields, ∀ v, r.field? f.name = some v → Γ.Full f.ty v

end Scope

mutual

/-- The field has no bounded array, and its records are of the definition that the scope has of
their type. -/
inductive PodMember.Rigid (Γ : Scope) : PodMember → Prop
  | scalar (name k) : PodMember.Rigid Γ (.scalar name k)
  | array {len} (name k) : len.Rigid → PodMember.Rigid Γ (.array name k len)
  | block (name k dims) : PodMember.Rigid Γ (.block name k dims)
  | pod {of shape} (name) : shape.Rigid → PodType.Rigid Γ of → Γ.pod of.typeName = .ok of →
      PodMember.Rigid Γ (.pod name of shape)
  | named {of shape f} (name) : shape.Rigid → Γ.named of.typeName = .ok of →
      PodMember.named name of shape = .ok f → PodMember.Rigid Γ f

inductive PodType.Rigid (Γ : Scope) : PodType → Prop
  | make {t members d} : (∀ f ∈ members, PodMember.Rigid Γ f) →
      PodType.make t members = .ok d → PodType.Rigid Γ d

end

def Footprint (room : Nat) (full : Prop) (e : Element) : Prop :=
  e.payload ≤ room ∧ (e.payload = room ↔ full)

namespace Footprint

variable {Γ : Scope} {room : Nat} {e : Element} {ty : Ty}

theorem of_void (hroom : Γ.room ty = room) (he : e.payload = 0) :
    Footprint room (Γ.Full ty .null) e := by
  refine ⟨he ▸ Nat.zero_le room, ?_⟩
  rw [he]
  constructor
  · exact fun h => .void (hroom.trans h.symm)
  · rintro (h | h | h | h | h | h)
    · exact (hroom.symm.trans h).symm
    all_goals exact absurd rfl h

theorem of_full {full : Prop} (hfull : full) (he : e.payload = room) : Footprint room full e :=
  ⟨Nat.le_of_eq he, fun _ => hfull, fun _ => he⟩

theorem sum {α : Type} {share : α → Nat} {full : α → Prop} {xs : List α} {es : List Element}
    (h : List.Forall₂ (fun x e => Footprint (share x) (full x) e) xs es) :
    (es.map payload).sum ≤ (xs.map share).sum ∧
      ((es.map payload).sum = (xs.map share).sum ↔ ∀ x ∈ xs, full x) := by
  induction h with
  | nil => simp
  | @cons x e xs es hxe _ ih =>
    simp only [List.map_cons, List.sum_cons, List.forall_mem_cons]
    obtain ⟨hle, heq⟩ := hxe
    obtain ⟨hles, heqs⟩ := ih
    rw [← heq, ← heqs]
    omega

end Footprint

def PodMember.Firm (Γ : Scope) (f : PodMember) : Prop :=
  ∀ n, f.shape.recordCount? = some n → ∀ v : Value, v.WellFormed →
    ∀ i e, Γ.encode v i f.ty = .ok e → Footprint (n * f.unit) (Γ.Full f.ty v) e

namespace PodType

variable {Γ : Scope} {d : PodType} {l : Container Element} {i : Key}

def Firm (Γ : Scope) (d : PodType) : Prop := ∀ r, Value.RecordWellFormed r →
  ∀ i l, d.encodeOne (Γ.encodeParts r) = .ok l → Footprint d.size (Γ.FullRecord d r) (ofList i l)

theorem Firm.encodeArray (hd : d.Firm Γ) {rs : List (Record Value)}
    (hrs : ∀ r ∈ rs, Value.RecordWellFormed r)
    (h : d.encodeArray (rs.map Γ.encodeParts) = .ok l) :
    Footprint (rs.length * d.size) (∀ r ∈ rs, Γ.FullRecord d r) (ofList i l) := by
  obtain ⟨es, rfl, hes⟩ := encodeArray_records h
  have hall : List.Forall₂ (fun r e => Footprint d.size (Γ.FullRecord d r) e) rs es := by
    refine forall₂_imp_mem hes fun r hr e he => ?_
    obtain ⟨p, c, hc, rfl⟩ := he
    exact hd r (hrs r hr) _ c hc
  have hsum := Footprint.sum hall
  rw [List.map_const', List.sum_replicate_nat] at hsum
  rwa [Footprint, payload_ofList i rfl]

theorem firm_of_members {t : String} {members : List PodMember}
    (hmembers : ∀ f ∈ members, f.Firm Γ) (h : PodType.make t members = .ok d) : d.Firm Γ := by
  intro r hr i l hl
  obtain ⟨hfields, hsize, es, rfl, hes⟩ := fields_of_encodeOne h hr hl
  have hall : List.Forall₂ (fun f e => Footprint (PodMember.room f)
      (∀ v, r.field? f.name = some v → Γ.Full f.ty v) e) members es := by
    refine forall₂_imp_mem hes fun f hf e he => ?_
    obtain ⟨n, v, hn, hroom, hfield, hv, he⟩ := he
    obtain ⟨hle, heq⟩ := hmembers f hf n hn v hv _ e he
    rw [hroom]
    refine ⟨hle, heq.trans ⟨fun hfull w hw => ?_, fun hfull => hfull v hfield⟩⟩
    exact Option.some.inj (hfield.symm.trans hw) ▸ hfull
  have hfull : Γ.FullRecord d r ↔
      ∀ f ∈ members, ∀ v, r.field? f.name = some v → Γ.Full f.ty v := by
    rw [Scope.FullRecord, hfields, List.forall_mem_map]
  rw [Footprint, payload_ofList i rfl, hsize, hfull]
  exact Footprint.sum hall

end PodType

section Members

variable {Γ : Scope} {n : Nat} {v : Value} {i : Key} {e : Element}

theorem footprint_pods {t : String} {shape : Shape} {d : PodType} (hd : Γ.pod t = .ok d)
    (hfirm : d.Firm Γ) (hrigid : shape.Rigid) (hn : shape.recordCount? = some n)
    (hv : v.WellFormed) (he : Γ.encode v i (.pod t shape) = .ok e) :
    Footprint (n * d.size) (Γ.Full (.pod t shape) v) e := by
  obtain ⟨rfl, hzero⟩ | ⟨hnull, hm, hrs, j, l, hl, he⟩ := Scope.payload_pods hd hv he
  · refine .of_void ?_ hzero
    rw [Scope.room, hd, hn]
    rfl
  · have hrecords := hfirm.encodeArray (i := j) hrs hl
    rw [(hm n hn).2 hrigid, Footprint, ← he] at hrecords
    refine ⟨hrecords.1, hrecords.2.trans ⟨fun h => .pods hnull hd h, ?_⟩⟩
    rintro (h | h | h | h | h | ⟨-, hd', h⟩)
    · exact absurd rfl hnull
    · cases hd.symm.trans hd'
      exact h

theorem footprint_named {t : String} {shape : Shape} {d : NamedType} (hd : Γ.named t = .ok d)
    (hrigid : shape.Rigid) (hn : shape.recordCount? = some n) (hv : v.WellFormed)
    (he : Γ.encode v i (.named t shape) = .ok e) :
    Footprint (n * d.bytes) (Γ.Full (.named t shape) v) e := by
  obtain ⟨rfl, hzero⟩ | ⟨hnull, hm, j, l, hl, he⟩ := Scope.payload_named hd hv he
  · refine .of_void ?_ hzero
    rw [Scope.room, hd, hn]
    rfl
  · refine .of_full (.named hnull) ?_
    rw [he, NamedType.payload_records hl, (hm n hn).2 hrigid]

end Members

theorem PodType.Rigid.firm {Γ : Scope} {d : PodType} (h : d.Rigid Γ) : d.Firm Γ := by
  refine @PodType.Rigid.rec Γ (fun f _ => f.Firm Γ) (fun d _ => d.Firm Γ)
    ?scalar ?array ?block ?pod ?named ?make d h
  case scalar =>
    intro name k n hn v _ i e he
    cases hn
    refine .of_full (.scalar ?_) ((Scope.payload_scalar he).trans (Nat.one_mul k.width).symm)
    rintro rfl
    cases (Scope.encode_null.mp he).1
  case array =>
    intro len name k hrigid n hn v _ i e he
    obtain ⟨rfl, hzero⟩ | ⟨hnull, m, hm, he⟩ := Scope.payload_array he
    · refine .of_void ?_ hzero
      rw [PodMember.array, Scope.room]
      exact congrArg (·.getD 0 * k.width) hn
    · exact .of_full (.array hnull) (by rw [he, (hm n hn).2 hrigid]; rfl)
  case block =>
    intro name k dims n hn v hv i e he
    obtain ⟨rfl, hzero⟩ | ⟨hnull, m, hm, he⟩ := Scope.payload_block hv he
    · refine .of_void ?_ hzero
      rw [PodMember.block, Scope.room]
      exact congrArg (·.getD 0 * k.width) hn
    · exact .of_full (.block hnull) (by rw [he, (hm n hn).2 trivial]; rfl)
  case pod =>
    intro of shape name hrigid _ hscope hof n hn v hv i e he
    exact footprint_pods hscope hof hrigid hn hv he
  case named =>
    intro of shape f name hrigid hscope hf n hn v hv i e he
    obtain ⟨-, rfl⟩ := PodMember.named_eq_ok.mp hf
    exact footprint_named hscope hrigid hn hv he
  case make =>
    intro t members d _ hmake hmembers
    exact PodType.firm_of_members hmembers hmake

/-- A record of a definition without bounded arrays takes no more bytes than the definition's size,
and takes all of them if and only if nothing that has room is left out. -/
theorem PodType.footprint_exact {Γ : Scope} {d : PodType} (hd : d.Rigid Γ) {r : Record Value}
    (hr : Value.RecordWellFormed r) {l : Container Element}
    (h : d.encodeOne (Γ.encodeParts r) = .ok l) (i : Key) :
    (ofList i l).payload ≤ d.size ∧ ((ofList i l).payload = d.size ↔ Γ.FullRecord d r) :=
  hd.firm r hr i l h

namespace Geo

def trace : PodType :=
  ⟨"geo.Trace", [⟨"id", .scalar .uint16⟩, ⟨"samples", .array .int16 (.fixed 3)⟩], 8⟩

theorem trace_rigid (Γ : Scope) : trace.Rigid Γ := by
  refine .make ?_ (show PodType.make "geo.Trace"
    [.scalar "id" .uint16, .array "samples" .int16 (.fixed 3)] = .ok trace from rfl)
  rintro f (_ | ⟨_, _ | ⟨_, h⟩⟩)
  · exact .scalar ..
  · exact .array _ _ trivial
  · cases h

def samples : Value := .array ⟨.int16, [⟨1, nofun⟩, ⟨2, nofun⟩, ⟨3, nofun⟩]⟩

def traceOf (samples : Value) : Record Value :=
  ⟨"geo.Trace", [("id", .scalar ⟨.uint16, 7, nofun⟩), ("samples", samples)]⟩

theorem traceOf_wellFormed {samples : Value} (h : samples.WellFormed) :
    Value.RecordWellFormed (traceOf samples) := by
  simp only [traceOf, Value.RecordWellFormed, Value.FieldsWellFormed, Value.WellFormed, and_true,
    true_and, Entries.Sorted, List.pairwise_pair]
  exact ⟨by decide, h⟩

end Geo

open Geo

theorem PodType.footprint_exact_trace :
    (ofList (.index 0) ⟨.struct, some "geo.Trace", [.ofArray (.name "id") ⟨.uint16, [⟨7, nofun⟩]⟩,
      .ofArray (.name "samples") ⟨.int16, [⟨1, nofun⟩, ⟨2, nofun⟩, ⟨3, nofun⟩]⟩]⟩).payload = 8 ∧
    scope.FullRecord trace (traceOf samples) := by
  have hexact := footprint_exact (trace_rigid scope)
    (traceOf_wellFormed (show samples.WellFormed from trivial))
    (show trace.encodeOne (scope.encodeParts (traceOf samples)) = .ok _ from rfl) (.index 0)
  exact ⟨rfl, hexact.2.mp rfl⟩

/-- A trace is packed without its samples, and takes two bytes of its eight. -/
theorem PodType.footprint_short : trace.Rigid scope ∧ trace.size = 8 ∧
    Value.RecordWellFormed (traceOf .null) ∧
    trace.encodeOne (scope.encodeParts (traceOf .null)) =
      .ok ⟨.struct, some "geo.Trace", [.ofArray (.name "id") ⟨.uint16, [⟨7, nofun⟩]⟩,
        .void (.name "samples")]⟩ ∧
    (ofList (.index 0) ⟨.struct, some "geo.Trace", [.ofArray (.name "id") ⟨.uint16, [⟨7, nofun⟩]⟩,
        .void (.name "samples")]⟩).payload = 2 :=
  ⟨trace_rigid _, rfl, traceOf_wellFormed trivial, rfl, rfl⟩

end TypedWire
