import TypedWire.Proofs.Entries
import TypedWire.Proofs.Results
import TypedWire.Service

namespace TypedWire

theorem splitAtLastDot_eq_some {cs owner name : List Char}
    (h : splitAtLastDot cs = some (owner, name)) : cs = owner ++ '.' :: name := by
  induction cs generalizing owner with
  | nil => cases h
  | cons c cs ih =>
    cases hs : splitAtLastDot cs with
    | none =>
      simp only [splitAtLastDot, hs, Option.ite_none_right_eq_some] at h
      obtain ⟨rfl, h⟩ := h
      cases h
      rfl
    | some p =>
      simp only [splitAtLastDot, hs] at h
      cases h
      rw [ih hs, List.cons_append]

theorem splitName_eq_ok {q ns name : String} (h : splitName q = .ok (ns, name)) :
    q = ns ++ "." ++ name := by
  unfold splitName at h
  split at h
  · rename_i c owner d rest hs
    cases h
    apply String.toList_inj.mp
    simp [splitAtLastDot_eq_some hs]
  · cases h

theorem splitAtLastDot_eq_none_iff {cs : List Char} : splitAtLastDot cs = none ↔ '.' ∉ cs := by
  induction cs with
  | nil => simp [splitAtLastDot]
  | cons c cs ih =>
    cases hs : splitAtLastDot cs with
    | none =>
      rw [hs] at ih
      have hrest : '.' ∉ cs := ih.mp rfl
      simp only [splitAtLastDot, hs, List.mem_cons, hrest, or_false, ite_eq_right_iff, reduceCtorEq,
        imp_false]
      exact not_congr eq_comm
    | some p =>
      have hrest : '.' ∈ cs := by
        rw [splitAtLastDot_eq_some hs]
        simp
      simp [splitAtLastDot, hs, hrest]

theorem splitAtLastDot_append (owner : List Char) {name : List Char} (h : '.' ∉ name) :
    splitAtLastDot (owner ++ '.' :: name) = some (owner, name) := by
  induction owner with
  | nil => simp [splitAtLastDot, splitAtLastDot_eq_none_iff.mpr h]
  | cons c owner ih => rw [List.cons_append, splitAtLastDot, ih]

theorem dot_not_mem_of_splitAtLastDot {cs owner name : List Char}
    (h : splitAtLastDot cs = some (owner, name)) : '.' ∉ name := by
  induction cs generalizing owner with
  | nil => cases h
  | cons c cs ih =>
    cases hs : splitAtLastDot cs with
    | none =>
      simp only [splitAtLastDot, hs, Option.ite_none_right_eq_some] at h
      obtain ⟨-, h⟩ := h
      cases h
      exact splitAtLastDot_eq_none_iff.mp hs
    | some p =>
      simp only [splitAtLastDot, hs] at h
      cases h
      exact ih hs

/-- The name is the local one under its namespace, cut at the last dot. -/
structure Qualifies (ns name q : String) : Prop where
  eq_append : q = ns ++ "." ++ name
  ns_ne : ns ≠ ""
  name_ne : name ≠ ""
  dot_not_mem : '.' ∉ name.toList

theorem splitName_iff {q ns name : String} :
    splitName q = .ok (ns, name) ↔ Qualifies ns name q := by
  constructor
  · intro h
    have happend := splitName_eq_ok h
    unfold splitName at h
    split at h
    · rename_i c owner d rest hs
      cases h
      refine ⟨happend, ?_, ?_, ?_⟩
      · simp
      · simp
      · simpa using dot_not_mem_of_splitAtLastDot hs
    · cases h
  · rintro ⟨rfl, hns, hname, hdot⟩
    obtain ⟨c, owner, howner⟩ := List.exists_cons_of_ne_nil (mt String.toList_eq_nil_iff.mp hns)
    obtain ⟨d, rest, hrest⟩ := List.exists_cons_of_ne_nil (mt String.toList_eq_nil_iff.mp hname)
    have hsplit : splitAtLastDot (ns ++ "." ++ name).toList = some (c :: owner, d :: rest) := by
      rw [String.toList_append, String.toList_append, howner, hrest]
      simpa using splitAtLastDot_append (c :: owner) (hrest ▸ hdot)
    simp only [splitName, hsplit]
    rw [← howner, ← hrest, String.ofList_toList, String.ofList_toList]

theorem eq_of_splitName {q : String} {e : WireError} (h : splitName q = .error e) :
    e = .serviceTypeNotFound q := by
  unfold splitName at h
  split at h
  · cases h
  · cases h
    rfl

theorem splitName_inj {p q : String} {x : String × String} (hp : splitName p = .ok x)
    (hq : splitName q = .ok x) : p = q := by
  rw [splitName_eq_ok hp, splitName_eq_ok hq]

theorem expectDistinct_eq_ok {seen : List String} {fields : List Field} :
    expectDistinct seen fields = .ok () ↔
      (fields.map (·.name)).Nodup ∧ ∀ f ∈ fields, f.name ∉ seen := by
  induction fields generalizing seen with
  | nil => simp [expectDistinct]
  | cons f fs ih =>
    simp only [expectDistinct, Checked.refuse_eq_ok, ih, List.map_cons, List.nodup_cons,
      List.mem_map, List.mem_cons, not_or, forall_eq_or_imp, not_exists, not_and]
    constructor
    · rintro ⟨hf, hd, hs⟩
      exact ⟨⟨fun g hg => (hs g hg).1, hd⟩, hf, fun g hg => (hs g hg).2⟩
    · rintro ⟨⟨hn, hd⟩, hf, hs⟩
      exact ⟨hf, hd, fun g hg => ⟨hn g hg, hs g hg⟩⟩

theorem PodMember.named_eq_ok {name : String} {of : NamedType} {shape : Shape} {f : PodMember} :
    PodMember.named name of shape = .ok f ↔ of.bytes < wordBound ∧
      ⟨⟨name, .named of.typeName shape⟩, of.bytes, shape⟩ = f := by
  simp only [PodMember.named, NamedType.size, Checked.bind_eq_ok, Checked.word_eq_ok,
    Checked.pure_eq_ok, and_assoc, exists_and_left, exists_eq_left']

def StructType.Built (d : StructType) : Prop := ∃ t fields, StructType.make t fields = .ok d

inductive NamedType.Built : NamedType → Prop
  | make {t k parts d} : (∀ name of, (name, .record of) ∈ parts → NamedType.Built of) →
      NamedType.make t k parts = .ok d → NamedType.Built d

mutual

inductive PodMember.Built : PodMember → Prop
  | scalar (name k) : PodMember.Built (.scalar name k)
  | array (name k len) : PodMember.Built (.array name k len)
  | block (name k dims) : PodMember.Built (.block name k dims)
  | pod {of} (name shape) : PodType.Built of → PodMember.Built (.pod name of shape)
  | named {of f} (name shape) : NamedType.Built of → PodMember.named name of shape = .ok f →
      PodMember.Built f

inductive PodType.Built : PodType → Prop
  | make {t members d} : (∀ f ∈ members, PodMember.Built f) → PodType.make t members = .ok d →
      PodType.Built d

end

def Ty.InPod : Ty → Prop
  | .scalar _ | .array _ _ | .block _ _ | .pod _ _ | .named _ _ => True
  | _ => False

theorem StructType.Built.distinct {d : StructType} (h : d.Built) :
    (d.fields.map (·.name)).Nodup := by
  obtain ⟨t, fields, h⟩ := h
  simp only [StructType.make, Checked.bind_eq_ok, Checked.pure_eq_ok, Checked.exists_unit] at h
  obtain ⟨_, _, hd, rfl⟩ := h
  exact (expectDistinct_eq_ok.mp hd).1

theorem NamedType.Built.count_ne_zero {d : NamedType} (h : d.Built) : d.count ≠ 0 := by
  obtain ⟨-, h⟩ := h
  simp only [NamedType.make, Checked.bind_eq_ok, Checked.refuse_eq_ok, Checked.pure_eq_ok] at h
  obtain ⟨_, _, _, _, _, _, hc, rfl⟩ := h
  exact hc

theorem PodMember.Built.inPod {f : PodMember} (h : f.Built) : f.ty.InPod := by
  cases h with
  | named name shape _ hf =>
    obtain ⟨-, rfl⟩ := PodMember.named_eq_ok.mp hf
    trivial
  | _ => trivial

namespace PodType.Built

variable {d : PodType}

theorem distinct (h : d.Built) : (d.fields.map (·.name)).Nodup := by
  obtain ⟨-, h⟩ := h
  simp only [PodType.make, Checked.bind_eq_ok, Checked.pure_eq_ok, Checked.exists_unit] at h
  obtain ⟨_, _, _, _, hd, rfl⟩ := h
  exact (expectDistinct_eq_ok.mp hd).1

theorem inPod (h : d.Built) : ∀ f ∈ d.fields, f.ty.InPod := by
  obtain ⟨hm, h⟩ := h
  simp only [PodType.make, Checked.bind_eq_ok, Checked.pure_eq_ok, Checked.exists_unit] at h
  obtain ⟨_, _, _, _, _, rfl⟩ := h
  intro f hf
  obtain ⟨m, hm', rfl⟩ := List.mem_map.mp hf
  exact (hm m hm').inPod

end PodType.Built

inductive Service.Built : Service → Prop
  | make {owner structs pods named s} : (∀ d ∈ structs, d.Built) → (∀ d ∈ pods, d.Built) →
      (∀ d ∈ named, d.Built) → Service.make owner structs pods named = .ok s → Service.Built s

inductive Registry.Built : Registry → Prop
  | empty : Registry.Built .empty
  | register {r s r'} : Registry.Built r → s.Built → r.register s = .ok r' → Registry.Built r'

/-- A scope of built services, set up in one of the three ways there are. -/
inductive Scope.Built : Scope → Prop
  | ofRegistry {r} : r.Built → Scope.Built (.ofRegistry r)
  | bind {r ns Γ} : r.Built → Scope.bind r ns = .ok Γ → Scope.Built Γ
  | ofService {r s} : r.Built → s.Built → Scope.Built (.ofService r s)

namespace Service

theorem index_mem {δ : Type} {owner : String} {typeName : δ → String} {ds : List δ}
    {seen out : List (String × δ)} (h : index owner typeName seen ds = .ok out) :
    ∀ e ∈ out, e ∈ seen ∨ e.2 ∈ ds ∧ splitName (typeName e.2) = .ok (owner, e.1) := by
  induction ds generalizing seen with
  | nil =>
    cases h
    exact fun e he => .inl he
  | cons d ds ih =>
    simp only [index, Checked.bind_eq_ok, Checked.refuse_eq_ok, not_not] at h
    obtain ⟨⟨ns, name⟩, hn, rfl, _, h⟩ := h
    intro e he
    rcases ih h e he with hseen | ⟨hmem, hname⟩
    · rcases List.mem_append.mp hseen with hseen | hlast
      · exact .inl hseen
      · rw [List.mem_singleton] at hlast
        subst hlast
        exact .inr ⟨List.mem_cons_self, hn⟩
    · exact .inr ⟨List.mem_cons_of_mem _ hmem, hname⟩

theorem index_lookup {δ : Type} {owner : String} {typeName : δ → String} {ds : List δ}
    {out : List (String × δ)} (h : index owner typeName [] ds = .ok out) {name : String} {d : δ}
    (hd : out.lookup name = some d) : d ∈ ds ∧ splitName (typeName d) = .ok (owner, name) := by
  have hmem : (name, d) ∈ out := by
    obtain ⟨l, r, rfl, -⟩ := List.lookup_eq_some_iff.mp hd
    simp
  simpa using index_mem h _ hmem

namespace Built

variable {s : Service} {name : String}

theorem struct (h : s.Built) {d : StructType} (hd : s.struct? name = some d) :
    d.Built ∧ splitName d.typeName = .ok (s.name, name) := by
  obtain ⟨hs, -, -, h⟩ := h
  simp only [Service.make, Checked.bind_eq_ok, Checked.pure_eq_ok] at h
  obtain ⟨_, hi, _, _, _, _, rfl⟩ := h
  obtain ⟨hmem, hn⟩ := index_lookup hi hd
  exact ⟨hs d hmem, hn⟩

theorem pod (h : s.Built) {d : PodType} (hd : s.pod? name = some d) :
    d.Built ∧ splitName d.typeName = .ok (s.name, name) := by
  obtain ⟨-, hp, -, h⟩ := h
  simp only [Service.make, Checked.bind_eq_ok, Checked.pure_eq_ok] at h
  obtain ⟨_, _, _, hi, _, _, rfl⟩ := h
  obtain ⟨hmem, hn⟩ := index_lookup hi hd
  exact ⟨hp d hmem, hn⟩

theorem named (h : s.Built) {d : NamedType} (hd : s.named? name = some d) :
    d.Built ∧ splitName d.typeName = .ok (s.name, name) := by
  obtain ⟨-, -, ha, h⟩ := h
  simp only [Service.make, Checked.bind_eq_ok, Checked.pure_eq_ok] at h
  obtain ⟨_, _, _, _, _, hi, rfl⟩ := h
  obtain ⟨hmem, hn⟩ := index_lookup hi hd
  exact ⟨ha d hmem, hn⟩

end Built

end Service

theorem Registry.Built.get? {r : Registry} (h : r.Built) {ns : String} {s : Service}
    (hs : r.get? ns = some s) : s.Built ∧ s.name = ns := by
  induction h with
  | empty => cases hs
  | register hr hb h ih =>
    rw [get?_register h] at hs
    split at hs
    · cases hs
      exact ⟨hb, ‹_›⟩
    · exact ih hs

namespace Scope

theorem Built.service? {Γ : Scope} (h : Γ.Built) {ns : String} {s : Service}
    (hs : Γ.service? ns = some s) : s.Built ∧ s.name = ns := by
  cases h with
  | ofRegistry hr => exact hr.get? hs
  | bind hr hb =>
    simp only [Scope.bind, Registry.service, Checked.bind_eq_ok, Checked.pure_eq_ok] at hb
    obtain ⟨own, hown, rfl⟩ := hb
    cases ho : Registry.get? _ _ with
    | none => rw [ho] at hown; cases hown
    | some own' =>
      rw [ho] at hown
      cases hown
      simp only [Scope.service?] at hs
      split at hs
      · cases hs
        exact ⟨(hr.get? ho).1, ‹_›⟩
      · exact hr.get? hs
  | ofService hr hb =>
    simp only [Scope.service?, Scope.ofService] at hs
    split at hs
    · cases hs
      exact ⟨hb, ‹_›⟩
    · exact hr.get? hs

theorem definition_eq_ok {δ : Type} {Γ : Scope} {find : Service → String → Option δ} {q : String}
    {d : δ} : Γ.definition find q = .ok d ↔ ∃ ns name s,
      splitName q = .ok (ns, name) ∧ Γ.service? ns = some s ∧ find s name = some d := by
  simp only [definition, Checked.bind_eq_ok, Prod.exists]
  apply exists_congr
  intro ns
  apply exists_congr
  intro name
  cases hs : Γ.service? ns with
  | none => simp
  | some s => cases hf : find s name <;> simp [hf]

theorem ne_empty_of_definition {δ : Type} {Γ : Scope} {find : Service → String → Option δ}
    {q : String} {d : δ} (h : Γ.definition find q = .ok d) : q ≠ "" := by
  obtain ⟨ns, name, -, hq, -, -⟩ := definition_eq_ok.mp h
  rw [splitName_eq_ok hq]
  simp

namespace Built

variable {Γ : Scope} {q : String}

theorem definition {δ : Type} {find : Service → String → Option δ} {typeName : δ → String}
    {B : δ → Prop} (h : Γ.Built)
    (hfind : ∀ {s name}, s.Built → ∀ {d}, find s name = some d →
      B d ∧ splitName (typeName d) = .ok (s.name, name))
    {d : δ} (hd : Γ.definition find q = .ok d) : typeName d = q ∧ B d := by
  obtain ⟨ns, name, s, hq, hs, hf⟩ := definition_eq_ok.mp hd
  obtain ⟨hb, rfl⟩ := h.service? hs
  obtain ⟨hd, hn⟩ := hfind hb hf
  exact ⟨splitName_inj hn hq, hd⟩

theorem struct (h : Γ.Built) {d : StructType} (hd : Γ.struct q = .ok d) :
    d.typeName = q ∧ d.Built :=
  h.definition Service.Built.struct hd

theorem pod (h : Γ.Built) {d : PodType} (hd : Γ.pod q = .ok d) : d.typeName = q ∧ d.Built :=
  h.definition Service.Built.pod hd

theorem named (h : Γ.Built) {d : NamedType} (hd : Γ.named q = .ok d) :
    d.typeName = q ∧ d.Built :=
  h.definition Service.Built.named hd

theorem struct_typeName_ne_empty (h : Γ.Built) {d : StructType} (hd : Γ.struct q = .ok d) :
    d.typeName ≠ "" := by
  rw [(h.struct hd).1]
  exact ne_empty_of_definition hd

theorem pod_typeName_ne_empty (h : Γ.Built) {d : PodType} (hd : Γ.pod q = .ok d) :
    d.typeName ≠ "" := by
  rw [(h.pod hd).1]
  exact ne_empty_of_definition hd

theorem named_typeName_ne_empty (h : Γ.Built) {d : NamedType} (hd : Γ.named q = .ok d) :
    d.typeName ≠ "" := by
  rw [(h.named hd).1]
  exact ne_empty_of_definition hd

end Built

end Scope

namespace Geo

def point : PodType := ⟨"geo.Point", [⟨"x", .scalar .int16⟩, ⟨"y", .scalar .int16⟩], 4⟩

def velocity : NamedType := ⟨"geo.Velocity", .int32, [⟨"dx", 0, 1⟩, ⟨"dy", 1, 1⟩], 2⟩

def track : StructType :=
  ⟨"geo.Track", [⟨"points", .pod "geo.Point" (.array (.bounded 4))⟩,
    ⟨"speed", .named "geo.Velocity" .single⟩, ⟨"notes", .map .text (.list .text)⟩]⟩

def service : Service :=
  ⟨"geo", [("Track", track)], [("Point", point)], [("Velocity", velocity)]⟩

def scope : Scope := .ofService .empty service

theorem point_built : point.Built := by
  refine .make ?_
    (show PodType.make "geo.Point" [.scalar "x" .int16, .scalar "y" .int16] = .ok point from rfl)
  rintro f (_ | ⟨_, _ | ⟨_, h⟩⟩)
  · exact .scalar ..
  · exact .scalar ..
  · cases h

theorem velocity_built : velocity.Built :=
  .make (by simp)
    (show NamedType.make "geo.Velocity" .int32 [("dx", .items 1), ("dy", .items 1)] =
      .ok velocity from rfl)

theorem track_built : track.Built := ⟨track.typeName, track.fields, rfl⟩

theorem scope_built : scope.Built := by
  refine .ofService .empty (.make ?_ ?_ ?_
    (show Service.make "geo" [track] [point] [velocity] = .ok service from rfl))
  · simpa using track_built
  · simpa using point_built
  · simpa using velocity_built

theorem eq_track {t : String} {s : StructType} (h : scope.struct t = .ok s) : s = track := by
  obtain ⟨ns, name, own, -, hown, hs⟩ := Scope.definition_eq_ok.mp h
  simp only [scope, Scope.service?, Scope.ofService, Registry.get?, Registry.empty,
    List.find?_nil, Option.ite_none_right_eq_some, Option.some.injEq] at hown
  obtain ⟨-, rfl⟩ := hown
  simp only [Service.struct?, service, List.lookup_cons] at hs
  split at hs
  · exact (Option.some.inj hs).symm
  · cases hs

def pointAt (x y : Int16) : Record Value :=
  ⟨"geo.Point", [("x", .scalar ⟨.int16, x.toBitVec, nofun⟩),
    ("y", .scalar ⟨.int16, y.toBitVec, nofun⟩)]⟩

theorem pointAt_wellFormed (x y : Int16) : Value.RecordWellFormed (pointAt x y) := by
  simp only [pointAt, Value.RecordWellFormed, Value.FieldsWellFormed, Value.WellFormed, and_true,
    Entries.Sorted, List.pairwise_pair]
  decide

def drive : Value :=
  .struct ⟨"geo.Track", [("notes", .dictionary [("start", .list [.text "dry", .null])]),
    ("points", .podArray "geo.Point" [pointAt 1 2, pointAt 3 (-4)]),
    ("speed", .named ⟨"geo.Velocity", .int32, [.ofInt32 5, .ofInt32 (-6)]⟩)]⟩

theorem drive_wellFormed : drive.WellFormed := by
  simp only [drive, pointAt, Value.WellFormed, Value.RecordWellFormed, Value.FieldsWellFormed,
    Value.ListWellFormed, Value.RecordsWellFormed, and_true]
  decide

end Geo

end TypedWire
