import TypedWire.Proofs.Built
import TypedWire.Proofs.Entries
import TypedWire.Proofs.Packing

namespace TypedWire

variable {α : Type}

namespace Numbers

@[simp] theorem itemsOf_eq_ok {k : NumericKind} {a : Numbers} {items : List (Item k)} :
    itemsOf k a = .ok items ↔ a = ⟨k, items⟩ := by
  rcases a with ⟨l, xs⟩
  unfold itemsOf
  by_cases h : l = k
  · subst h
    simp
  · simp [h]

theorem concat_eq_ok {k : NumericKind} {parts : List Numbers} {flat : Numbers} :
    concat k parts = .ok flat ↔
      ∃ lists : List (List (Item k)), parts = lists.map (⟨k, ·⟩) ∧ ⟨k, lists.flatten⟩ = flat := by
  simp only [concat, Checked.bind_eq_ok, Checked.pure_eq_ok, Checked.mapM_eq_ok, itemsOf_eq_ok]
  apply exists_congr
  intro lists
  rw [← List.forall₂_eq_eq_eq, List.forall₂_map_right_iff]

theorem kind_concat {k : NumericKind} {parts : List Numbers} {flat : Numbers}
    (h : concat k parts = .ok flat) : flat.kind = k := by
  obtain ⟨lists, -, rfl⟩ := concat_eq_ok.mp h
  rfl

theorem exists_concat {k : NumericKind} {parts : List Numbers}
    (h : ∀ a ∈ parts, a.kind = k) : ∃ flat, concat k parts = .ok flat := by
  induction parts with
  | nil => exact ⟨⟨k, []⟩, rfl⟩
  | cons a parts ih =>
    obtain ⟨rfl, htail⟩ := List.forall_mem_cons.mp h
    obtain ⟨flat, hflat⟩ := ih htail
    obtain ⟨lists, rfl, -⟩ := concat_eq_ok.mp hflat
    exact ⟨_, concat_eq_ok.mpr ⟨a.items :: lists, rfl, rfl⟩⟩

theorem kind_of_ofBytes {k : NumericKind} {bytes : List UInt8} {a : Numbers}
    (h : ofBytes k bytes = .ok a) : a.kind = k := by
  simp only [ofBytes, Checked.guard_eq_ok, Checked.bind_eq_ok, Checked.pure_eq_ok] at h
  obtain ⟨-, _, -, rfl⟩ := h
  rfl

theorem of_split {a : Numbers} {w : Nat} {parts : List Numbers} (h : a.split w = .ok parts) :
    ∀ part ∈ parts, part.kind = a.kind ∧ part.length = w := by
  simp only [split, Checked.refuse_eq_ok, Except.ok.injEq] at h
  obtain ⟨-, rfl⟩ := h
  intro part hpart
  obtain ⟨p, hp, rfl⟩ := List.mem_map.mp hpart
  exact ⟨rfl, length_of_mem_pieces (Nat.div_mul_le_self ..) hp⟩

theorem length_flatten {w : Nat} {ls : List (List α)} (h : ∀ l ∈ ls, l.length = w) :
    ls.flatten.length = ls.length * w := by
  rw [List.length_flatten, List.map_congr_left h, List.map_const', List.sum_replicate_nat]

theorem split_concat {k : NumericKind} {parts : List Numbers} {flat : Numbers} {w : Nat}
    (h : concat k parts = .ok flat) (hw : w ≠ 0) (hl : ∀ a ∈ parts, a.length = w) :
    flat.split w = .ok parts := by
  obtain ⟨lists, rfl, rfl⟩ := concat_eq_ok.mp h
  have hlists : ∀ l ∈ lists, l.length = w := by
    intro l hmem
    exact hl ⟨k, l⟩ (List.mem_map_of_mem hmem)
  have hlen : length ⟨k, lists.flatten⟩ = lists.length * w := length_flatten hlists
  have hdiv : length ⟨k, lists.flatten⟩ / w = lists.length := by
    rw [hlen, Nat.mul_div_cancel _ (Nat.pos_of_ne_zero hw)]
  have hmod : length ⟨k, lists.flatten⟩ % w = 0 := by
    rw [hlen, Nat.mul_mod_left]
  rw [split, if_neg (by simp [hw, hmod]), hdiv, pieces_flatten hlists]

end Numbers

theorem Scalar.ofArray_eq_ok {a : Numbers} {s : Scalar} : ofArray a = .ok s ↔ a = s.toArray := by
  constructor
  · intro h
    unfold ofArray at h
    split at h
    · cases h
      rfl
    · cases h
  · rintro rfl
    exact ofArray_toArray s

@[simp] theorem Scalar.itemOf_eq_ok {k : NumericKind} {s : Scalar} {x : Item k} :
    s.itemOf k = .ok x ↔ s = ⟨k, x⟩ := by
  rcases s with ⟨l, y⟩
  unfold itemOf
  by_cases h : l = k
  · subst h
    simp
  · simp [h]

namespace Container

variable {l : Container α}

@[simp] theorem expectType_eq_ok {t : String} : l.expectType t = .ok () ↔ l.typeName = some t := by
  simp [expectType]

@[simp] theorem expectKind_eq_ok {kind : ListKind} {what : String} :
    l.expectKind kind what = .ok () ↔ l.kind = kind := by
  simp [expectKind]

end Container

namespace Element

theorem arrayOf_eq_ok {k : NumericKind} {e : Element} {a : Numbers} :
    e.arrayOf k = .ok a ↔
      ∃ i bytes, e = .flat i (.numeric k) bytes ∧ Numbers.ofBytes k bytes = .ok a := by
  rcases e with i | ⟨i, form, bytes⟩ | ⟨i, kind, t, items⟩
  · simp [arrayOf]
  · cases form with
    | numeric l =>
      simp only [arrayOf, Checked.guard_eq_ok, flat.injEq, FlatForm.numeric.injEq]
      constructor
      · rintro ⟨rfl, h⟩
        exact ⟨i, bytes, ⟨rfl, rfl, rfl⟩, h⟩
      · rintro ⟨_, _, ⟨rfl, rfl, rfl⟩, h⟩
        exact ⟨rfl, h⟩
    | text => simp [arrayOf]
  · simp [arrayOf]

theorem kind_of_arrayOf {k : NumericKind} {e : Element} {a : Numbers} (h : e.arrayOf k = .ok a) :
    a.kind = k := by
  obtain ⟨_, _, -, hbytes⟩ := arrayOf_eq_ok.mp h
  exact Numbers.kind_of_ofBytes hbytes

@[simp] theorem arrayOf_ofArray (i : Key) (a : Numbers) :
    (ofArray i a).arrayOf a.kind = .ok a :=
  arrayOf_eq_ok.mpr ⟨i, a.bytes, rfl, Numbers.ofBytes_bytes a⟩

@[simp] theorem text_ofText (i : Key) (s : String) : (ofText i s).text = .ok s := by
  have h : String.fromUTF8? ⟨s.toByteArray.data.toList.toArray⟩ = some s := by
    simp only [Array.toArray_toList, String.fromUTF8?, String.fromUTF8,
      Option.dite_none_right_eq_some, exists_prop, and_true]
    exact s.isValidUTF8
  simp only [text, ofText, h]

end Element

@[simp] theorem only_eq_ok {xs : List α} {x : α} : only xs = .ok x ↔ xs = [x] := by
  rcases xs with _ | ⟨y, _ | ⟨z, xs⟩⟩ <;> simp [only]

theorem unwrapBlock_pair {view : α → Element} {x y : α} {dims : List UInt32}
    (hx : view x = .ofArray (.name dimsName) (dimsArray dims))
    (hy : (view y).key = .name arrayName) : unwrapBlock view [x, y] = .ok (dims, y) := by
  have hc : NamedChildren.ofList ([x, y].map fun z => ((view z).key, z)) =
      .ok ⟨[(dimsName, x), (arrayName, y)]⟩ := by
    refine NamedChildren.ofList_eq_ok.mpr ⟨?_, by simp [dimsName, arrayName]⟩
    simp [NamedChildren.listed, hx, hy]
  have hd : (view x).arrayOf .uint32 = .ok (dimsArray dims) := by
    rw [hx]
    exact Element.arrayOf_ofArray ..
  have hback : (dims.map Item.ofUInt32).map Item.toUInt32 = dims := by
    simp [Function.comp_def]
  simp only [unwrapBlock, Checked.bind_eq_ok, Prod.exists]
  refine ⟨_, hc, x, ⟨[(arrayName, y)]⟩, NamedChildren.take_cons (by simp [dimsName, arrayName]),
    dimsArray dims, hd, dims.map Item.ofUInt32, by simp [dimsArray], y, ⟨[]⟩,
    NamedChildren.take_cons (by simp), (), by simp, ?_⟩
  rw [hback]
  rfl

namespace Ty

theorem orTag_of_ne {d : Ty} (h : d ≠ .any) (e : Element) : d.orTag e = .ok d := by
  cases d <;> first | rfl | exact absurd rfl h

@[simp] theorem any_orTag (e : Element) : Ty.any.orTag e = e.ty := rfl

theorem orTag_eq {e : Element} {v : Value} (h : e.ty = .ok v.ty) (d : Ty) :
    d.orTag e = .ok (d.orOwn v) := by
  cases d <;> first | exact h | rfl

end Ty

theorem decodeFields_listed {Γ : Scope} {table : List Field} {es : List Element}
    {m : List (String × Value)} (hd : (table.map (·.name)).Nodup)
    (h : List.Forall₂ (fun f e => e.key = .name f.name ∧
      ∃ v, Entries.get? f.name m = some v ∧ Γ.unpack e f.ty = .ok v) table es) :
    ∃ entries fields, (es.map fun e => (e.key, Γ.reader e)) = NamedChildren.listed entries ∧
      entries.map (·.1) = table.map (·.name) ∧
      decodeFields table ⟨entries⟩ = .ok (fields, ⟨[]⟩) ∧
      fields.map (·.1) = table.map (·.name) ∧ ∀ e ∈ fields, Entries.get? e.1 m = some e.2 := by
  induction h with
  | nil => exact ⟨[], [], rfl, rfl, rfl, rfl, nofun⟩
  | @cons f e table es hfe _ ih =>
    obtain ⟨hkey, v, hv, hu⟩ := hfe
    rw [List.map_cons, List.nodup_cons] at hd
    obtain ⟨entries, fields, hes, hnames, hfields, hfnames, hm⟩ := ih hd.2
    refine ⟨(f.name, Γ.reader e) :: entries, (f.name, v) :: fields, ?_, ?_, ?_, ?_, ?_⟩
    · rw [List.map_cons, hes, hkey]
      rfl
    · rw [List.map_cons, List.map_cons, hnames]
    · simp only [decodeFields, Checked.bind_eq_ok, Checked.pure_eq_ok, Prod.exists]
      exact ⟨_, _, NamedChildren.take_cons (hnames ▸ hd.1), v, hu, fields, ⟨[]⟩, hfields, rfl⟩
    · rw [List.map_cons, List.map_cons, hfnames]
    · exact List.forall_mem_cons.mpr ⟨hv, hm⟩

theorem decodeEntries_sorted {κ : Type} [DecidableEq κ] [LT κ] [DecidableLT κ] [LE κ]
    [Std.LawfulOrderLT κ] {Γ : Scope} {key : Key → Checked κ} {text : κ → String} {value : Ty}
    {seen es : List (κ × Value)} {items : List Element} (hs : Entries.Sorted (seen ++ es))
    (h : List.Forall₂ (fun c e => key e.key = .ok c.1 ∧ Γ.unpack e value = .ok c.2) es items) :
    decodeEntries key text value seen (items.map Γ.reader) = .ok (seen ++ es) := by
  induction h generalizing seen with
  | nil => simp [decodeEntries]
  | @cons c e es items hce _ ih =>
    obtain ⟨hkey, hu⟩ := hce
    have hs' : Entries.Sorted ((seen ++ [c]) ++ es) := by simpa using hs
    have hinit : Entries.Sorted (seen ++ [c]) := hs'.sublist (List.sublist_append_left ..)
    simp only [List.map_cons, decodeEntries, Scope.element_reader, Scope.read_reader, hkey, hu,
      Checked.bind_eq_ok]
    refine ⟨c.1, rfl, ?_⟩
    rw [hinit.get?_init, if_neg (by simp)]
    simp only [Checked.bind_eq_ok]
    refine ⟨c.2, rfl, ?_⟩
    rw [Entries.put_last hinit, ih hs', List.append_assoc, List.singleton_append]

namespace NamedType

variable {d : NamedType}

theorem decodeArray_encodeArray (hd : d.Built) {rs : List NamedRecord} {l : Container Element}
    (h : d.encodeArray rs = .ok l) : d.decodeArray l = .ok rs := by
  obtain ⟨-, hrs, flat, hflat, rfl⟩ := encodeArray_eq_ok.mp h
  have hk : flat.kind = d.kind := Numbers.kind_concat hflat
  have hrec : ∀ r ∈ rs, r.typeName = d.typeName ∧ r.array.kind = d.kind ∧
      r.array.length = d.count := fun r hr => expectRecord_eq_ok.mp (hrs r hr)
  have hsplit : flat.split d.count = .ok (rs.map (·.array)) :=
    Numbers.split_concat hflat hd.count_ne_zero fun a ha => by
      obtain ⟨r, hr, rfl⟩ := List.mem_map.mp ha
      exact (hrec r hr).2.2
  have hname : (rs.map (·.array)).map (⟨d.typeName, ·⟩) = rs := by
    rw [List.map_map, List.map_congr_left fun r hr => ?_, List.map_id]
    simp [← (hrec r hr).1]
  have hc : NamedChildren.ofList [(Key.name arrayName, Element.ofArray (.name arrayName) flat)] =
      .ok ⟨[(arrayName, .ofArray (.name arrayName) flat)]⟩ :=
    NamedChildren.ofList_eq_ok.mpr ⟨rfl, by simp⟩
  simp only [decodeArray, Checked.bind_eq_ok, Checked.exists_unit, Container.expectKind_eq_ok,
    Container.expectType_eq_ok, Prod.exists, Checked.pure_eq_ok]
  refine ⟨trivial, trivial, _, hc, _, _, NamedChildren.take_cons (by simp), flat, ?_, by simp, _,
    hsplit, hname⟩
  rw [← hk]
  exact Element.arrayOf_ofArray ..

theorem decodeBlock_encodeBlock (hd : d.Built) {b : Block NamedRecord} (hb : b.WellFormed)
    {l : Container Element} (h : d.encodeBlock b = .ok l) : d.decodeBlock l = .ok b := by
  obtain ⟨array, ha, rfl⟩ := encodeBlock_eq_ok.mp h
  simp only [decodeBlock, Checked.bind_eq_ok, Checked.exists_unit, Container.expectKind_eq_ok,
    Container.expectType_eq_ok, Prod.exists]
  refine ⟨trivial, trivial, _, _, unwrapBlock_pair rfl rfl, array, ?_, _,
    decodeArray_encodeArray hd ha, Block.make_eq_ok_iff.mpr ⟨rfl, hb⟩⟩
  obtain ⟨-, -, flat, -, rfl⟩ := encodeArray_eq_ok.mp ha
  rfl

end NamedType

namespace Scope

variable {Γ : Scope} {e : Element} {d : Ty}

theorem unpack_void (i : Key) (h : d.Nullable) : Γ.unpack (.void i) d = .ok .null := by
  rw [unpack_eq, decodeWith, if_pos (show (Element.void i).tag = .void from rfl), if_pos h]

theorem unpack_of_ne (hd : d ≠ .any) (he : e.tag ≠ .void) :
    Γ.unpack e d = Γ.decodeAs e (e.children.map Γ.reader) d := by
  rw [unpack_eq, decodeWith, if_neg he, Ty.orTag_of_ne hd]
  rfl

theorem unpack_own {v : Value} (he : e.tag ≠ .void) (h : e.ty = .ok v.ty) :
    Γ.unpack e d = Γ.decodeAs e (e.children.map Γ.reader) (d.orOwn v) := by
  rw [unpack_eq, decodeWith, if_neg he, Ty.orTag_eq h]
  rfl

end Scope

end TypedWire
