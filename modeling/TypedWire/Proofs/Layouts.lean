import TypedWire.Proofs.Built
import TypedWire.Proofs.Conformance
import TypedWire.Proofs.Payloads

namespace TypedWire

theorem Numbers.slice_eq_ok {a b : Numbers} {start n : Nat} : a.slice start n = .ok b ↔
    start + n ≤ a.length ∧ ⟨a.kind, (a.items.drop start).take n⟩ = b := by
  simp [slice]

theorem Numbers.length_of_slice {a b : Numbers} {start n : Nat} (h : a.slice start n = .ok b) :
    b.length = n := by
  obtain ⟨hle, rfl⟩ := slice_eq_ok.mp h
  exact Region.length_slice hle

namespace NamedType

def total (parts : List (String × Nat)) : Nat := (parts.map (·.2)).sum

def placed (offset : Nat) : List (String × Nat) → List FieldRange
  | [] => []
  | (name, n) :: rest => ⟨name, offset, n⟩ :: placed (offset + n) rest

/-- The definition has a field for each part, at the sum of the lengths before it. -/
structure Lays (d : NamedType) (k : NumericKind) (parts : List (String × Nat)) : Prop where
  kind : d.kind = k
  fields : d.fields.map (fun f => (f.name, f.length)) = parts
  distinct : (d.fields.map (·.name)).Nodup
  length_pos : ∀ f ∈ d.fields, 1 ≤ f.length
  offset : ∀ i f, d.fields[i]? = some f → f.offset = total (parts.take i)
  count : d.count = total parts
  count_lt : total parts < wordBound

/-- The declared fields are there, and no others, and one after the other are the whole record. -/
structure Tiles (d : NamedType) (r : NamedRecord) : Prop where
  get_iff : ∀ name, (∃ a, d.get r name = .ok a) ↔ name ∈ d.fields.map (·.name)
  concat : ∃ parts, d.fields.mapM (fun f => d.get r f.name) = .ok parts ∧
    Numbers.concat d.kind parts = .ok r.array

section Laying

variable {parts : List (String × Nat)}

@[simp] theorem total_nil : total [] = 0 := rfl

@[simp] theorem total_cons (p : String × Nat) (parts : List (String × Nat)) :
    total (p :: parts) = p.2 + total parts := by
  rw [total, List.map_cons, List.sum_cons, total]

theorem map_placed (offset : Nat) (parts : List (String × Nat)) :
    (placed offset parts).map (fun f => (f.name, f.length)) = parts := by
  induction parts generalizing offset with
  | nil => rfl
  | cons p parts ih => rw [placed, List.map_cons, ih]

theorem map_name_placed (offset : Nat) (parts : List (String × Nat)) :
    (placed offset parts).map (·.name) = parts.map (·.1) := by
  conv => rhs; rw [← map_placed offset parts, List.map_map]
  rfl

theorem offset_placed {offset i : Nat} {f : FieldRange} (h : (placed offset parts)[i]? = some f) :
    f.offset = offset + total (parts.take i) := by
  induction parts generalizing offset i with
  | nil => cases h
  | cons p parts ih =>
    cases i with
    | zero =>
      cases h
      rfl
    | succ i =>
      rw [ih h, List.take_succ_cons, total_cons, Nat.add_assoc]

theorem mem_map_name_snoc {name : String} {laid : List FieldRange} {f : FieldRange} :
    name ∈ (laid ++ [f]).map (·.name) ↔ name ∈ laid.map (·.name) ∨ name = f.name := by
  rw [List.map_append, List.mem_append, List.map_singleton, List.mem_singleton]

theorem layFields_cons_eq_ok {name : String} {n offset : Nat} {laid : List FieldRange}
    {r : List FieldRange × Nat} : layFields offset laid ((name, n) :: parts) = .ok r ↔
      name ∉ laid.map (·.name) ∧ n ≠ 0 ∧ offset + n < wordBound ∧
        layFields (offset + n) (laid ++ [⟨name, offset, n⟩]) parts = .ok r := by
  have hany : laid.any (·.name = name) = true ↔ name ∈ laid.map (·.name) := by
    simp [List.any_eq_true, List.mem_map]
  simp only [layFields, Checked.refuse_eq_ok, hany, Checked.bind_eq_ok, Checked.word_eq_ok,
    and_assoc, exists_and_left, exists_eq_left']

theorem layFields_eq_ok {offset count : Nat} {laid fields : List FieldRange}
    (hoffset : offset < wordBound) : layFields offset laid parts = .ok (fields, count) ↔
      (parts.map (·.1)).Nodup ∧ (∀ p ∈ parts, p.1 ∉ laid.map (·.name) ∧ 1 ≤ p.2) ∧
        offset + total parts < wordBound ∧ fields = laid ++ placed offset parts ∧
          count = offset + total parts := by
  induction parts generalizing offset laid with
  | nil =>
    rw [layFields]
    simp only [Except.ok.injEq, Prod.mk.injEq, List.map_nil, List.nodup_nil, List.not_mem_nil,
      false_imp_iff, implies_true, placed, List.append_nil, total_nil, Nat.add_zero, true_and,
      hoffset, eq_comm]
  | cons p parts ih =>
    obtain ⟨name, n⟩ := p
    rw [layFields_cons_eq_ok, total_cons, ← Nat.add_assoc, placed,
      List.append_cons laid _ (placed _ _)]
    simp only [List.map_cons, List.nodup_cons, List.forall_mem_cons]
    constructor
    · rintro ⟨hname, hn, hnext, hrest⟩
      obtain ⟨hd, hall, hsum, rfl, rfl⟩ := (ih hnext).mp hrest
      simp only [mem_map_name_snoc, not_or] at hall
      refine ⟨⟨?_, hd⟩, ⟨⟨hname, Nat.pos_of_ne_zero hn⟩, ?_⟩, hsum, rfl, rfl⟩
      · rintro hmem
        obtain ⟨q, hq, hqname⟩ := List.mem_map.mp hmem
        exact (hall q hq).1.2 hqname
      · exact fun q hq => ⟨(hall q hq).1.1, (hall q hq).2⟩
    · rintro ⟨⟨hfresh, hd⟩, ⟨⟨hname, hn⟩, hall⟩, hsum, rfl, rfl⟩
      have hnext : offset + n < wordBound := Nat.lt_of_le_of_lt (Nat.le_add_right _ _) hsum
      refine ⟨hname, Nat.ne_of_gt hn, hnext, (ih hnext).mpr ⟨hd, ?_, hsum, rfl, rfl⟩⟩
      simp only [mem_map_name_snoc, not_or]
      exact fun q hq => ⟨⟨(hall q hq).1, fun hqname => hfresh (hqname ▸ List.mem_map_of_mem hq)⟩,
        (hall q hq).2⟩

theorem mapM_length_eq_ok {k : NumericKind} {given : List (String × NamedPart)} :
    given.mapM (fun g => return (g.1, ← g.2.length k)) =
      (.ok parts : Checked (List (String × Nat))) ↔
        List.Forall₂ (fun g p => g.1 = p.1 ∧ g.2.length k = .ok p.2) given parts := by
  simp only [Checked.mapM_eq_ok, Checked.bind_eq_ok, Checked.pure_eq_ok]
  refine ⟨List.Forall₂.imp ?_, List.Forall₂.imp ?_⟩
  · rintro g p ⟨n, hn, rfl⟩
    exact ⟨rfl, hn⟩
  · rintro g p ⟨hname, hn⟩
    exact ⟨p.2, hn, by rw [hname]⟩

/-- What is accepted: a qualified name, and parts that all have a length, at least one of them, of
which the names differ, no length is zero and the sum of the lengths is a word. -/
theorem make_eq_ok {t : String} {k : NumericKind} {given : List (String × NamedPart)}
    {d : NamedType} : make t k given = .ok d ↔ ∃ parts,
      List.Forall₂ (fun g p => g.1 = p.1 ∧ g.2.length k = .ok p.2) given parts ∧
      (∃ q, splitName t = .ok q) ∧ parts ≠ [] ∧ (parts.map (·.1)).Nodup ∧ (∀ p ∈ parts, 1 ≤ p.2) ∧
      total parts < wordBound ∧ ⟨t, k, placed 0 parts, total parts⟩ = d := by
  have hzero : 0 < wordBound := by decide
  simp only [make, Checked.bind_eq_ok, mapM_length_eq_ok, Checked.refuse_eq_ok, Checked.pure_eq_ok,
    Prod.exists, layFields_eq_ok hzero, List.nil_append, Nat.zero_add]
  constructor
  · rintro ⟨parts, hgiven, ns, name, hname, fields, count, ⟨hd, hall, hlt, rfl, rfl⟩, hne, rfl⟩
    refine ⟨parts, hgiven, ⟨ns, name, hname⟩, ?_, hd, fun p hp => (hall p hp).2, hlt, rfl⟩
    rintro rfl
    exact hne rfl
  · rintro ⟨parts, hgiven, ⟨ns, name, hname⟩, hne, hd, hall, hlt, rfl⟩
    obtain ⟨p, rest, rfl⟩ := List.exists_cons_of_ne_nil hne
    have hpos : 1 ≤ total (p :: rest) :=
      Nat.le_trans (hall p List.mem_cons_self) (Nat.le_add_right _ _)
    exact ⟨_, hgiven, ns, name, hname, _, _, ⟨hd, fun q hq => ⟨List.not_mem_nil, hall q hq⟩, hlt,
      rfl, rfl⟩, by omega, rfl⟩

theorem lays_placed (t : String) (k : NumericKind) (hd : (parts.map (·.1)).Nodup)
    (hpos : ∀ p ∈ parts, 1 ≤ p.2) (hlt : total parts < wordBound) :
    Lays ⟨t, k, placed 0 parts, total parts⟩ k parts where
  kind := rfl
  fields := map_placed 0 parts
  distinct := (map_name_placed 0 parts).symm ▸ hd
  length_pos f hf := by
    have hmem := List.mem_map_of_mem (f := fun f : FieldRange => (f.name, f.length)) hf
    rw [map_placed] at hmem
    exact hpos _ hmem
  offset i f hf := (offset_placed hf).trans (Nat.zero_add _)
  count := rfl
  count_lt := hlt

end Laying

section Tiling

variable {d : NamedType} {r : NamedRecord} {k : NumericKind} {parts : List (String × Nat)}

theorem slices_placed (a : Numbers) {offset : Nat}
    (hlen : offset + total parts ≤ a.length) : ∃ lists : List (List (Item a.kind)),
      (placed offset parts).mapM (fun f => a.slice f.offset f.length) =
        .ok (lists.map (⟨a.kind, ·⟩)) ∧
      lists.flatten = (a.items.drop offset).take (total parts) := by
  induction parts generalizing offset with
  | nil => exact ⟨[], rfl, by simp⟩
  | cons p parts ih =>
    rw [total_cons, ← Nat.add_assoc] at hlen
    obtain ⟨lists, hlists, hflat⟩ := ih hlen
    refine ⟨(a.items.drop offset).take p.2 :: lists, ?_, ?_⟩
    · have hslice : a.slice offset p.2 = .ok ⟨a.kind, (a.items.drop offset).take p.2⟩ :=
        Numbers.slice_eq_ok.mpr ⟨by omega, rfl⟩
      rw [placed, List.mapM_cons, hlists, hslice]
      rfl
    · rw [List.flatten_cons, hflat, total_cons, List.take_add, List.drop_drop]

theorem get_declared (hr : d.Describes r) (hd : (d.fields.map (·.name)).Nodup) {f : FieldRange}
    (hf : f ∈ d.fields) : d.get r f.name = r.array.slice f.offset f.length := by
  rw [get, describes_iff.mp hr, find?_named hd hf]
  rfl

theorem mem_of_get {name : String} {a : Numbers} (h : d.get r name = .ok a) :
    name ∈ d.fields.map (·.name) := by
  simp only [get, Checked.bind_eq_ok] at h
  obtain ⟨_, -, h⟩ := h
  cases hf : d.fields.find? (·.name = name) with
  | none =>
    rw [hf] at h
    cases h
  | some f =>
    have hname : f.name = name := by simpa using List.find?_some hf
    exact hname ▸ List.mem_map_of_mem (List.mem_of_find?_eq_some hf)

theorem Lays.tiles (h : d.Lays k parts) (hplaced : d.fields = placed 0 parts)
    (hr : d.Describes r) : d.Tiles r := by
  have hlen : r.array.length = total parts := hr.count.trans h.count
  have hstart : 0 + total parts = r.array.length := (Nat.zero_add _).trans hlen.symm
  obtain ⟨lists, hlists, hflat⟩ := slices_placed r.array (Nat.le_of_eq hstart)
  have hgets : d.fields.mapM (fun f => d.get r f.name) = .ok (lists.map (⟨r.array.kind, ·⟩)) := by
    rw [← hplaced, Checked.mapM_eq_ok] at hlists
    rw [Checked.mapM_eq_ok]
    refine forall₂_imp_mem hlists fun f hf a ha => ?_
    rw [get_declared hr h.distinct hf, ha]
  refine ⟨fun name => ⟨fun ⟨a, ha⟩ => mem_of_get ha, fun hname => ?_⟩, _, hgets, ?_⟩
  · obtain ⟨f, hf, rfl⟩ := List.mem_map.mp hname
    obtain ⟨a, -, ha⟩ := exists_of_forall₂ (Checked.mapM_eq_ok.mp hgets) f hf
    exact ⟨a, ha⟩
  · have hall : lists.flatten = r.array.items := by
      rw [hflat, List.drop_zero, ← hlen, Numbers.length, List.take_length]
    rw [← hr.kind]
    exact Numbers.concat_eq_ok.mpr ⟨lists, rfl, by rw [hall]⟩

end Tiling

/-- An accepted definition has a field for each of its parts, at the sum of the lengths before it,
and the fields divide every record of the type. The count is the sum of the lengths and a word; the
size is that of so many items if that is a word, and otherwise there is none. -/
theorem make_lays {t : String} {k : NumericKind} {given : List (String × NamedPart)}
    {d : NamedType} (h : make t k given = .ok d) : ∃ parts : List (String × Nat),
      List.Forall₂ (fun g p => g.1 = p.1 ∧ g.2.length k = .ok p.2) given parts ∧ d.Lays k parts ∧
      (∀ n, d.size = .ok n ↔ n = k.width * total parts ∧ n < wordBound) ∧
      (d.size = .error .overflow ↔ wordBound ≤ k.width * total parts) ∧
      ∀ r, d.Describes r → d.Tiles r := by
  obtain ⟨parts, hgiven, -, -, hd, hpos, hlt, rfl⟩ := make_eq_ok.mp h
  have hlays := lays_placed t k hd hpos hlt
  refine ⟨parts, hgiven, hlays, fun n => ?_, Checked.word_eq_overflow, fun r => hlays.tiles rfl⟩
  · rw [size, bytes, Checked.word_eq_ok]
    constructor
    · rintro ⟨hn, rfl⟩
      exact ⟨rfl, hn⟩
    · rintro ⟨rfl, hn⟩
      exact ⟨hn, rfl⟩

def segment : NamedType :=
  ⟨"geo.Segment", .int32, [⟨"from", 0, 2⟩, ⟨"to", 2, 2⟩, ⟨"weights", 4, 3⟩], 7⟩

theorem make_lays_segment : segment.Lays .int32 [("from", 2), ("to", 2), ("weights", 3)] ∧
    segment.size = .ok 28 ∧ ∀ r, segment.Describes r → segment.Tiles r := by
  obtain ⟨parts, -, hlays, hsize, -, htiles⟩ := make_lays
    (show make "geo.Segment" .int32 [("from", .record Geo.velocity), ("to", .record Geo.velocity),
      ("weights", .items 3)] = .ok segment from rfl)
  cases hlays.fields
  exact ⟨hlays, (hsize 28).mpr (by decide), htiles⟩

def huge : NamedType := ⟨"geo.Huge", .double, [⟨"a", 0, 2305843009213693952⟩], 2305843009213693952⟩

/-- A definition may be accepted that has no size. -/
theorem make_unsized : make "geo.Huge" .double [("a", .items 2305843009213693952)] = .ok huge ∧
    huge.bytes = wordBound ∧ huge.size = .error .overflow :=
  ⟨rfl, rfl, rfl⟩

end NamedType

end TypedWire
