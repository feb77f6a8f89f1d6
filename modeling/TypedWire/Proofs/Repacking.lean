import TypedWire.Proofs.Settled

namespace TypedWire

variable {Γ : Scope}

theorem of_decodeEntries {κ : Type} [DecidableEq κ] [LT κ] [DecidableLT κ] [LE κ]
    [Std.LawfulOrderLT κ] [Std.IsLinearOrder κ] {key : Key → Checked κ} {text : κ → String}
    {value : Ty} {P : Value → Prop} {rs : List Reader} {seen es : List (κ × Value)}
    (hrs : ∀ r ∈ rs, ∀ v, r.read value = .ok v → P v) (hs : Entries.Sorted seen)
    (hseen : ∀ e ∈ seen, P e.2) (h : decodeEntries key text value seen rs = .ok es) :
    Entries.Sorted es ∧ ∀ e ∈ es, P e.2 := by
  induction rs generalizing seen with
  | nil =>
    cases h
    exact ⟨hs, hseen⟩
  | cons r rs ih =>
    simp only [decodeEntries, Checked.bind_eq_ok, Checked.refuse_eq_ok] at h
    obtain ⟨k, -, -, v, hv, htail⟩ := h
    obtain ⟨hr, hrs⟩ := List.forall_mem_cons.mp hrs
    refine ih hrs hs.put ?_ htail
    intro e he
    rcases Entries.mem_put he with rfl | he
    · exact hr v hv
    · exact hseen e he

theorem of_decodeFields {Q : Ty → Value → Prop} {table : List Field} {c c' : NamedChildren Reader}
    {fields : List (String × Value)} (hc : ∀ x ∈ c.entries, ∀ d v, x.2.read d = .ok v → Q d v)
    (h : decodeFields table c = .ok (fields, c')) :
    fields.map (·.1) = table.map (·.name) ∧
      ∀ f ∈ table, ∃ v, (f.name, v) ∈ fields ∧ Q f.ty v := by
  induction table generalizing c fields with
  | nil =>
    cases h
    exact ⟨rfl, List.forall_mem_nil _⟩
  | cons f table ih =>
    simp only [decodeFields, Checked.bind_eq_ok, Checked.pure_eq_ok, Prod.exists] at h
    obtain ⟨r, rest, htake, v, hv, vs, _, hvs, heq⟩ := h
    cases heq
    obtain ⟨hr, hrest⟩ := NamedChildren.mem_of_take htake
    obtain ⟨hnames, hall⟩ := ih (fun x hx => hc x (hrest x hx)) hvs
    refine ⟨by rw [List.map_cons, List.map_cons, hnames], List.forall_mem_cons.mpr ⟨?_, ?_⟩⟩
    · exact ⟨v, List.mem_cons_self, hc _ hr _ _ hv⟩
    · intro g hg
      obtain ⟨w, hw, hQ⟩ := hall g hg
      exact ⟨w, List.mem_cons_of_mem _ hw, hQ⟩

theorem mem_of_unwrapBlock {α : Type} {view : α → Element} {items : List α} {dims : List UInt32}
    {array : α} (h : unwrapBlock view items = .ok (dims, array)) : array ∈ items := by
  simp only [unwrapBlock, Checked.bind_eq_ok, Prod.exists, Checked.pure_eq_ok] at h
  obtain ⟨c, hc, _, c', hdims, _, -, _, -, _, _, harray, _, -, hpair⟩ := h
  cases hpair
  have hmem := (NamedChildren.mem_of_take hdims).2 _ (NamedChildren.mem_of_take harray).1
  exact NamedChildren.mem_of_listed (NamedChildren.ofList_eq_ok.mp hc).1 hmem

theorem Element.nullable_of_ty {e : Element} {d : Ty} (h : e.ty = .ok d) : d.Nullable := by
  rcases e with i | ⟨i, k | _, bytes⟩ | ⟨i, kind, t, items⟩
  · cases h; trivial
  · cases h; trivial
  · cases h; trivial
  · cases kind with
    | block =>
      simp only [ty] at h
      split at h
      · split at h
        · cases h; trivial
        · cases h
      · cases h
    | _ =>
      cases t <;> cases h <;> trivial

namespace Scope

def Settles (Γ : Scope) (e : Element) : Prop := ∀ d v, Γ.unpack e d = .ok v → Γ.Settled d v

section Records

variable {l : Container Element}

theorem fills_of_decodeRecord {what t : String} {table : List Field}
    (hd : (table.map (·.name)).Nodup) (hl : ∀ c ∈ l.items, Γ.Settles c) {r : Record Value}
    (h : decodeRecord what t table (Γ.readerList l) = .ok r) : Γ.Fills table r := by
  simp only [decodeRecord, Checked.bind_eq_ok, Checked.exists_unit, Prod.exists,
    Checked.pure_eq_ok] at h
  obtain ⟨-, -, c, hc, fields, c', hfields, -, rfl⟩ := h
  have hread : ∀ x ∈ c.entries, ∀ d v, x.2.read d = .ok v → Γ.Settled d v := by
    intro x hx d v hv
    have hmem := NamedChildren.mem_of_listed (NamedChildren.ofList_eq_ok.mp hc).1 hx
    obtain ⟨e, he, hxe⟩ := List.mem_map.mp hmem
    rw [← hxe] at hv
    exact hl e he d v hv
  obtain ⟨hnames, hall⟩ := of_decodeFields hread hfields
  have hget : ∀ e ∈ fields, Entries.get? e.1 fields = some e.2 := fun e he =>
    Entries.get?_of_mem (hnames ▸ hd) he
  refine ⟨Entries.sorted_ofList fields, fun e he => ?_, fun f hf => ?_⟩
  · rw [← hnames]
    by_contra hnone
    have hsome := Entries.get?_of_mem (Entries.sorted_ofList fields).nodup he
    rw [Entries.get?_ofList hget, if_neg hnone] at hsome
    cases hsome
  · obtain ⟨v, hv, hsettled⟩ := hall f hf
    refine ⟨v, ?_, hsettled⟩
    rw [Entries.get?_ofList hget, if_pos (hnames ▸ List.mem_map_of_mem hf), hget _ hv]

theorem accepts_of_decodeArray {p : PodType} (hp : p.Built) (hne : p.typeName ≠ "")
    (hl : ∀ c ∈ l.items, c.Everywhere Γ.Settles) {rs : List (Record Value)}
    (h : p.decodeArray (Γ.readerList l) = .ok rs) :
    rs.length ≤ positionBound ∧ ∀ r ∈ rs, p.Accepts Γ r := by
  simp only [PodType.decodeArray, Checked.bind_eq_ok, Checked.exists_unit, readerList,
    Container.map, List.map_map, Function.comp_def, element_reader, List.mapM_map] at h
  obtain ⟨-, -, hpos, hrs⟩ := h
  constructor
  · have hlen := length_of_expectPositionsFrom (Nat.zero_le _) hpos
    rwa [Nat.zero_add, List.length_map, (Checked.mapM_eq_ok.mp hrs).length_eq] at hlen
  · intro r hr
    obtain ⟨c, hc, hone⟩ := Checked.exists_of_mapM hrs r hr
    obtain ⟨one, hone, hrec⟩ := Checked.bind_eq_ok.mp hone
    obtain ⟨l', hl', rfl⟩ := readerList_listOf.mp hone
    have hinside : ∀ x ∈ l'.items, Γ.Settles x := by
      rw [← Element.children_of_listOf hl']
      exact fun x hx => ((hl c hc).inside x hx).here
    have hname : r.typeName = p.typeName := typeName_of_decodeRecord hrec
    have hfills := fills_of_decodeRecord hp.distinct hinside hrec
    obtain ⟨enc, henc⟩ := hfills.exists_encodeRecord (hname ▸ hne)
    exact ⟨hfills.wellFormed, enc, by rw [PodType.encodeOne, ← hname, henc]⟩

theorem accepts_of_decodeBlock {p : PodType} (hp : p.Built) (hne : p.typeName ≠ "")
    (hl : ∀ c ∈ l.items, c.Everywhere Γ.Settles) {b : Block (Record Value)}
    (h : p.decodeBlock (Γ.readerList l) = .ok b) :
    b.WellFormed ∧ b.items.length ≤ positionBound ∧ ∀ r ∈ b.items, p.Accepts Γ r := by
  simp only [PodType.decodeBlock, Checked.bind_eq_ok, Checked.exists_unit, Prod.exists,
    Block.make_eq_ok_iff] at h
  obtain ⟨-, -, dims, array, hunwrap, la, hla, rs, hrs, rfl, hb⟩ := h
  obtain ⟨c, hc, rfl⟩ := List.mem_map.mp (mem_of_unwrapBlock hunwrap)
  obtain ⟨l', hl', rfl⟩ := readerList_listOf.mp hla
  refine ⟨hb, accepts_of_decodeArray hp hne ?_ hrs⟩
  rw [← Element.children_of_listOf hl']
  exact (hl c hc).inside

theorem expectRecord_of_decodeArray {a : NamedType} {rs : List NamedRecord}
    (h : a.decodeArray l = .ok rs) : ∀ r ∈ rs, a.expectRecord r = .ok () := by
  simp only [NamedType.decodeArray, Checked.bind_eq_ok, Checked.exists_unit, Prod.exists,
    Checked.pure_eq_ok] at h
  obtain ⟨-, -, _, -, array, _, -, flat, hflat, -, parts, hparts, rfl⟩ := h
  intro r hr
  obtain ⟨part, hpart, rfl⟩ := List.mem_map.mp hr
  obtain ⟨hkind, hlen⟩ := Numbers.of_split hparts part hpart
  exact NamedType.expectRecord_eq_ok.mpr
    ⟨rfl, hkind.trans (Element.kind_of_arrayOf hflat), hlen⟩

theorem expectRecord_of_decodeBlock {a : NamedType} {b : Block NamedRecord}
    (h : a.decodeBlock l = .ok b) :
    b.WellFormed ∧ ∀ r ∈ b.items, a.expectRecord r = .ok () := by
  simp only [NamedType.decodeBlock, Checked.bind_eq_ok, Checked.exists_unit, Prod.exists,
    Block.make_eq_ok_iff] at h
  obtain ⟨-, -, dims, array, -, la, -, rs, hrs, rfl, hb⟩ := h
  exact ⟨hb, expectRecord_of_decodeArray hrs⟩

end Records

section Shapes

variable {e : Element} {v : Value}

theorem read_settled {es : List Element} (h : ∀ c ∈ es, Γ.Settles c) (d : Ty) :
    ∀ r ∈ es.map Γ.reader, ∀ v, r.read d = .ok v → Γ.Settled d v := by
  intro r hr v hv
  obtain ⟨c, hc, rfl⟩ := List.mem_map.mp hr
  exact h c hc d v hv

theorem settled_of_decodeMap {key value : Ty} (hc : ∀ c ∈ e.children, Γ.Settles c)
    (h : Γ.decodeAs e (e.children.map Γ.reader) (.map key value) = .ok v) :
    Γ.Settled (.map key value) v := by
  simp only [decodeAs, Checked.bind_eq_ok] at h
  obtain ⟨kind, hkey, h⟩ := h
  cases kind with
  | int32 =>
    simp only [Checked.bind_eq_ok, Checked.pure_eq_ok] at h
    obtain ⟨l, hl, es, hes, rfl⟩ := h
    obtain ⟨c, hcl, rfl⟩ := listWith_eq_ok.mp hl
    rw [Element.children_of_listOf hcl] at hc
    obtain ⟨hs, hsettled⟩ := of_decodeEntries (read_settled hc value) List.Pairwise.nil
      (List.forall_mem_nil _) hes
    exact settled_vector hkey hs hsettled
  | text =>
    simp only [Checked.bind_eq_ok, Checked.pure_eq_ok] at h
    obtain ⟨l, hl, es, hes, rfl⟩ := h
    obtain ⟨c, hcl, rfl⟩ := listWith_eq_ok.mp hl
    rw [Element.children_of_listOf hcl] at hc
    obtain ⟨hs, hsettled⟩ := of_decodeEntries (read_settled hc value) List.Pairwise.nil
      (List.forall_mem_nil _) hes
    exact settled_dictionary hkey hs hsettled

theorem settled_of_decodeList {item : Ty} (hc : ∀ c ∈ e.children, Γ.Settles c)
    (h : Γ.decodeAs e (e.children.map Γ.reader) (.list item) = .ok v) :
    Γ.Settled (.list item) v := by
  simp only [decodeAs, Checked.bind_eq_ok, Checked.exists_unit, Checked.pure_eq_ok] at h
  obtain ⟨l, hl, hpos, vs, hvs, rfl⟩ := h
  obtain ⟨c, hcl, rfl⟩ := listWith_eq_ok.mp hl
  rw [Element.children_of_listOf hcl] at hc
  apply settled_list
  · have hlen := length_of_expectPositionsFrom (Nat.zero_le _) hpos
    rwa [Nat.zero_add, List.length_map, (Checked.mapM_eq_ok.mp hvs).length_eq] at hlen
  · intro v hv
    obtain ⟨r, hr, hread⟩ := Checked.exists_of_mapM hvs v hv
    exact read_settled hc item r hr v hread

theorem settled_of_decodeStruct (hΓ : Γ.Built) {t : String} (hc : ∀ c ∈ e.children, Γ.Settles c)
    (h : Γ.decodeAs e (e.children.map Γ.reader) (.struct t) = .ok v) :
    Γ.Settled (.struct t) v := by
  simp only [decodeAs, Checked.bind_eq_ok, Checked.exists_unit, Checked.pure_eq_ok] at h
  obtain ⟨l, hl, -, s, hs, r, hr, rfl⟩ := h
  obtain ⟨c, hcl, rfl⟩ := listWith_eq_ok.mp hl
  obtain ⟨rfl, hb⟩ := hΓ.struct hs
  rw [Element.children_of_listOf hcl] at hc
  exact settled_struct hΓ hs (typeName_of_decodeRecord hr)
    (fills_of_decodeRecord hb.distinct hc hr)

theorem settled_of_decodePods (hΓ : Γ.Built) {t : String} {shape : Shape}
    (hc : ∀ c ∈ e.children, c.Everywhere Γ.Settles)
    (h : Γ.decodePods t shape e (e.children.map Γ.reader) = .ok v) :
    Γ.Settled (.pod t shape) v := by
  simp only [decodePods, Checked.bind_eq_ok] at h
  obtain ⟨p, hp, h⟩ := h
  obtain ⟨rfl, hb⟩ := hΓ.pod hp
  have hne := hΓ.pod_typeName_ne_empty hp
  cases shape with
  | single =>
    simp only [Checked.bind_eq_ok, Checked.pure_eq_ok, only_eq_ok] at h
    obtain ⟨l, hl, _, hrs, r, rfl, rfl⟩ := h
    obtain ⟨c, hcl, rfl⟩ := listWith_eq_ok.mp hl
    rw [Element.children_of_listOf hcl] at hc
    obtain ⟨-, hrs⟩ := accepts_of_decodeArray hb hne hc hrs
    exact settled_pod hΓ hp (hrs r List.mem_cons_self)
  | array len =>
    simp only [Checked.bind_eq_ok, Checked.exists_unit, Checked.pure_eq_ok] at h
    obtain ⟨l, hl, rs, hrs, hcheck, rfl⟩ := h
    obtain ⟨c, hcl, rfl⟩ := listWith_eq_ok.mp hl
    rw [Element.children_of_listOf hcl] at hc
    obtain ⟨hlen, hrs⟩ := accepts_of_decodeArray hb hne hc hrs
    exact settled_podArray hΓ hp hcheck hlen hrs
  | block dims =>
    simp only [Checked.bind_eq_ok, Checked.exists_unit, Checked.pure_eq_ok] at h
    obtain ⟨l, hl, b, hdecode, hdims, rfl⟩ := h
    obtain ⟨c, hcl, rfl⟩ := listWith_eq_ok.mp hl
    rw [Element.children_of_listOf hcl] at hc
    obtain ⟨hwf, hlen, hrs⟩ := accepts_of_decodeBlock hb hne hc hdecode
    exact settled_podBlock hΓ hp hwf hdims hlen hrs

theorem settled_of_decodeNamed (hΓ : Γ.Built) {t : String} {shape : Shape}
    (h : Γ.decodeNamed t shape e = .ok v) : Γ.Settled (.named t shape) v := by
  simp only [decodeNamed, Checked.bind_eq_ok] at h
  obtain ⟨a, ha, h⟩ := h
  obtain ⟨rfl, -⟩ := hΓ.named ha
  cases shape with
  | single =>
    simp only [Checked.bind_eq_ok, Checked.pure_eq_ok, only_eq_ok] at h
    obtain ⟨l, -, _, hrs, r, rfl, rfl⟩ := h
    exact settled_named hΓ ha (expectRecord_of_decodeArray hrs r List.mem_cons_self)
  | array len =>
    simp only [Checked.bind_eq_ok, Checked.exists_unit, Checked.pure_eq_ok] at h
    obtain ⟨l, -, rs, hrs, hcheck, rfl⟩ := h
    exact settled_namedArray hΓ ha hcheck (expectRecord_of_decodeArray hrs)
  | block dims =>
    simp only [Checked.bind_eq_ok, Checked.exists_unit, Checked.pure_eq_ok] at h
    obtain ⟨l, -, b, hdecode, hdims, rfl⟩ := h
    obtain ⟨hwf, hrs⟩ := expectRecord_of_decodeBlock hdecode
    exact settled_namedBlock hΓ ha hwf hdims hrs

theorem settled_of_decodeAs (hΓ : Γ.Built) (hc : ∀ c ∈ e.children, c.Everywhere Γ.Settles)
    {d : Ty} (hd : d ≠ .any) (h : Γ.decodeAs e (e.children.map Γ.reader) d = .ok v) :
    Γ.Settled d v := by
  have hhere : ∀ c ∈ e.children, Γ.Settles c := fun c hmem => (hc c hmem).here
  cases d with
  | any => exact absurd rfl hd
  | scalar k =>
    simp only [decodeAs, Checked.bind_eq_ok, Checked.pure_eq_ok] at h
    obtain ⟨a, ha, s, hs, rfl⟩ := h
    obtain rfl := Scalar.ofArray_eq_ok.mp hs
    obtain rfl : s.kind = k := Element.kind_of_arrayOf ha
    exact settled_scalar s
  | array k len =>
    simp only [decodeAs, Checked.bind_eq_ok, Checked.exists_unit, Checked.pure_eq_ok] at h
    obtain ⟨a, ha, hlen, rfl⟩ := h
    obtain rfl : a.kind = k := Element.kind_of_arrayOf ha
    exact settled_array hlen
  | block k dims =>
    simp only [decodeAs, Checked.bind_eq_ok, Checked.exists_unit, Checked.pure_eq_ok, Prod.exists,
      Block.make_eq_ok_iff] at h
    obtain ⟨_, -, found, _, -, hdims, _, -, items, -, b, ⟨rfl, hb⟩, rfl⟩ := h
    exact settled_block hb hdims
  | text =>
    simp only [decodeAs, Checked.bind_eq_ok, Checked.pure_eq_ok] at h
    obtain ⟨s, -, rfl⟩ := h
    exact settled_text s
  | enum t =>
    simp only [decodeAs, Checked.bind_eq_ok, Checked.pure_eq_ok] at h
    obtain ⟨_, -, _, -, x, -, rfl⟩ := h
    exact settled_enum t (Item.toInt32 x)
  | map key value => exact settled_of_decodeMap hhere h
  | list item => exact settled_of_decodeList hhere h
  | struct t => exact settled_of_decodeStruct hΓ hhere h
  | pod t shape => exact settled_of_decodePods hΓ hc h
  | named t shape => exact settled_of_decodeNamed hΓ h

end Shapes

variable {e : Element} {d : Ty} {v : Value}

theorem ty_of_decodeAs (hΓ : Γ.Built) (hty : e.ty = .ok d)
    (h : Γ.decodeAs e (e.children.map Γ.reader) d = .ok v) : v.ty = d := by
  rcases e with i | ⟨i, k | _, bytes⟩ | ⟨i, kind, t, items⟩
  · cases hty
    cases h
    rfl
  · cases hty
    simp only [decodeAs, Checked.bind_eq_ok, Checked.exists_unit, Checked.pure_eq_ok] at h
    obtain ⟨a, ha, -, rfl⟩ := h
    rw [Value.ty, Element.kind_of_arrayOf ha]
  · cases hty
    simp only [decodeAs, Checked.bind_eq_ok, Checked.pure_eq_ok] at h
    obtain ⟨s, -, rfl⟩ := h
    rfl
  · cases kind with
    | block =>
      simp only [Element.ty] at hty
      split at hty
      · split at hty
        · cases hty
          simp only [decodeAs, Checked.bind_eq_ok, Checked.exists_unit, Checked.pure_eq_ok,
            Prod.exists] at h
          obtain ⟨_, -, _, _, -, -, _, -, _, -, _, -, rfl⟩ := h
          rfl
        · cases hty
      · cases hty
    | vector =>
      cases hty
      simp only [decodeAs, Ty.keyKind, Checked.bind_eq_ok, Checked.pure_eq_ok, Except.ok.injEq,
        exists_eq_left'] at h
      obtain ⟨_, -, _, -, rfl⟩ := h
      rfl
    | dictionary =>
      cases hty
      simp only [decodeAs, Ty.keyKind, Checked.bind_eq_ok, Checked.pure_eq_ok, Except.ok.injEq,
        exists_eq_left'] at h
      obtain ⟨_, -, _, -, rfl⟩ := h
      rfl
    | list =>
      cases hty
      simp only [decodeAs, Checked.bind_eq_ok, Checked.exists_unit, Checked.pure_eq_ok] at h
      obtain ⟨_, -, -, _, -, rfl⟩ := h
      rfl
    | struct =>
      cases t <;> cases hty
      simp only [decodeAs, Checked.bind_eq_ok, Checked.exists_unit, Checked.pure_eq_ok] at h
      obtain ⟨_, -, -, s, hs, r, hr, rfl⟩ := h
      rw [Value.ty, typeName_of_decodeRecord hr, (hΓ.struct hs).1]
    | podArray =>
      cases t <;> cases hty
      simp only [decodeAs, decodePods, Checked.bind_eq_ok, Checked.exists_unit,
        Checked.pure_eq_ok] at h
      obtain ⟨_, -, _, -, _, -, -, rfl⟩ := h
      rfl
    | podBlock =>
      cases t <;> cases hty
      simp only [decodeAs, decodePods, Checked.bind_eq_ok, Checked.exists_unit,
        Checked.pure_eq_ok] at h
      obtain ⟨p, hp, _, -, _, -, -, rfl⟩ := h
      rw [Value.ty, (hΓ.pod hp).1]
    | namedArray =>
      cases t <;> cases hty
      simp only [decodeAs, decodeNamed, Checked.bind_eq_ok, Checked.exists_unit,
        Checked.pure_eq_ok] at h
      obtain ⟨_, -, _, -, _, -, -, rfl⟩ := h
      rfl
    | namedBlock =>
      cases t <;> cases hty
      simp only [decodeAs, decodeNamed, Checked.bind_eq_ok, Checked.exists_unit,
        Checked.pure_eq_ok] at h
      obtain ⟨p, hp, _, -, _, -, -, rfl⟩ := h
      rw [Value.ty, (hΓ.named hp).1]

theorem settles_of_inside (hΓ : Γ.Built) (e : Element)
    (hc : ∀ c ∈ e.children, c.Everywhere Γ.Settles) : Γ.Settles e := by
  intro d v h
  by_cases he : e.tag = .void
  · rw [unpack_eq, decodeWith, if_pos he, Checked.guard_eq_ok] at h
    obtain ⟨hd, h⟩ := h
    cases h
    exact settled_null hd
  · obtain ⟨d', hd', hdecode⟩ := (unpack_eq_ok he).mp h
    have hsettled := settled_of_decodeAs hΓ hc (orTag_ne_any he hd') hdecode
    by_cases hd : d = .any
    · subst hd
      rw [Ty.any_orTag] at hd'
      obtain rfl := ty_of_decodeAs hΓ hd' hdecode
      exact hsettled.any hΓ (Element.nullable_of_ty hd')
    · rw [Ty.orTag_of_ne hd] at hd'
      cases hd'
      exact hsettled

theorem settles (hΓ : Γ.Built) (e : Element) : Γ.Settles e :=
  (Element.everywhere (settles_of_inside hΓ) e).here

/-- Whatever an element holds under a type, open or not, packs again under the key of that element,
and what it packs into holds the same value. -/
theorem pack_of_unpack (hΓ : Γ.Built) (h : Γ.unpack e d = .ok v) :
    ∃ e', Γ.pack e.key v d = .ok e' ∧ Γ.unpack e' d = .ok v :=
  (settles hΓ e d v h).exists_pack hΓ e.key

end Scope

namespace Geo

theorem int16_isBool (n : Int16) : NumericKind.int16 = .bool → n.toBitVec.toNat ≤ 1 := by
  rintro ⟨⟩

def numberUnder (s : String) (n : Int16) : Element :=
  .ofArray (.name s) ⟨.int16, [⟨n.toBitVec, int16_isBool n⟩]⟩

def shuffled : Element :=
  .nested (.index 3) .vector (some "runs") [.nested (.name "+07") .struct (some "geo.Track")
    [.nested (.name "speed") .namedArray (some "geo.Velocity")
      [.ofArray (.name "array") ⟨.int32, [.ofInt32 5, .ofInt32 (-6)]⟩],
    .nested (.name "notes") .dictionary (some "text")
      [.nested (.name "start") .list none [.ofText (.index 0) "dry", .void (.index 1)]],
    .nested (.name "points") .podArray (some "geo.Point")
      [.nested (.index 0) .struct (some "geo.Point") [numberUnder "y" 2, numberUnder "x" 1],
      .nested (.index 1) .struct (some "geo.Point") [numberUnder "y" (-4), numberUnder "x" 3]]]]

end Geo

theorem Scope.pack_of_unpack_shuffled :
    let d := Ty.map (.scalar .int32) .any
    let v := Value.vector [(7, Geo.drive)]
    Geo.scope.unpack Geo.shuffled d = .ok v ∧
      ∃ e, Geo.scope.pack (.index 3) v d = .ok e ∧ Geo.scope.unpack e d = .ok v :=
  ⟨rfl, pack_of_unpack (e := Geo.shuffled) Geo.scope_built rfl⟩

end TypedWire
