import Mathlib
import TypedWire.Proofs.Codecs

namespace TypedWire

def ListKind.HasAxes : ListKind → Bool
  | .block | .podBlock | .namedBlock => true
  | _ => false

namespace Element

mutual

/-- Bytes of the leaves, those that hold the axes of a block left out. -/
def payload : Element → Nat
  | .void _ => 0
  | .flat _ _ bytes => bytes.length
  | .nested _ kind _ items => payloadIn kind items

def payloadIn (kind : ListKind) : List Element → Nat
  | [] => 0
  | e :: es =>
    (if kind.HasAxes ∧ e.key = .name dimsName then 0 else e.payload) + payloadIn kind es

end

theorem payload_ofArray (i : Key) (a : Numbers) :
    (ofArray i a).payload = a.length * a.kind.width := by
  rw [ofArray, payload, Numbers.length_bytes]

theorem payload_ofList (i : Key) {l : Container Element} (h : l.kind.HasAxes = false) :
    (ofList i l).payload = (l.items.map payload).sum := by
  obtain ⟨kind, t, items⟩ := l
  rw [ofList, payload]
  dsimp only at h ⊢
  induction items with
  | nil => rfl
  | cons e es ih => rw [payloadIn, ih, h, List.map_cons, List.sum_cons]; simp

theorem payload_block (i : Key) {kind : ListKind} (h : kind.HasAxes) (t : Option String)
    (dims : List UInt32) {e : Element} (he : e.key = .name arrayName) :
    (nested i kind t [.ofArray (.name dimsName) (dimsArray dims), e]).payload = e.payload := by
  simp [payload, payloadIn, h, he, dimsName, arrayName]

end Element

open Element

theorem sum_payload_le {α : Type} {share : α → Nat} {xs : List α} {es : List Element}
    (h : List.Forall₂ (fun x e => e.payload ≤ share x) xs es) :
    (es.map payload).sum ≤ (xs.map share).sum := by
  induction h with
  | nil => exact Nat.le_refl 0
  | cons hxe _ ih => simpa only [List.map_cons, List.sum_cons] using Nat.add_le_add hxe ih

namespace NamedType

variable {d : NamedType} {rs : List NamedRecord} {l : Container Element} {i : Key}

theorem payload_records (h : d.encodeArray rs = .ok l) :
    (ofList i l).payload = rs.length * d.bytes := by
  obtain ⟨-, hrs, flat, hflat, rfl⟩ := encodeArray_eq_ok.mp h
  obtain ⟨lists, hlists, rfl⟩ := Numbers.concat_eq_ok.mp hflat
  have hlen : lists.length = rs.length := by
    have := congrArg List.length hlists
    rw [List.length_map, List.length_map] at this
    exact this.symm
  have hcount : ∀ xs ∈ lists, xs.length = d.count := by
    intro xs hxs
    have hmem : (⟨d.kind, xs⟩ : Numbers) ∈ rs.map (·.array) := hlists ▸ List.mem_map_of_mem hxs
    obtain ⟨r, hr, harray⟩ := List.mem_map.mp hmem
    have hlength := (expectRecord_eq_ok.mp (hrs r hr)).2.2
    rw [harray] at hlength
    exact hlength
  have hitems : Numbers.length ⟨d.kind, lists.flatten⟩ = lists.length * d.count :=
    Numbers.length_flatten hcount
  rw [payload_ofList i rfl, List.map_singleton, List.sum_singleton, payload_ofArray, hitems, hlen,
    Nat.mul_assoc, Nat.mul_comm d.count, bytes]

theorem payload_encodeBlock {b : Block NamedRecord} (h : d.encodeBlock b = .ok l) :
    ∃ array, d.encodeArray b.items = .ok array ∧
      (ofList i l).payload = (ofList (.name arrayName) array).payload := by
  obtain ⟨array, harray, rfl⟩ := encodeBlock_eq_ok.mp h
  exact ⟨array, harray, payload_block i rfl _ _ rfl⟩

end NamedType

namespace PodType

variable {Γ : Scope} {d : PodType} {l : Container Element} {i : Key}

def Rooms (Γ : Scope) (d : PodType) : Prop := ∀ r, Value.RecordWellFormed r →
  ∀ i l, d.encodeOne (Γ.encodeParts r) = .ok l → (ofList i l).payload ≤ d.size

theorem encodeArray_records {rs : List (Record Value)}
    (h : d.encodeArray (rs.map Γ.encodeParts) = .ok l) :
    ∃ es, l = ⟨.podArray, some d.typeName, es⟩ ∧ List.Forall₂ (fun r e => ∃ p c,
      d.encodeOne (Γ.encodeParts r) = .ok c ∧ .ofList (.index p) c = e) rs es := by
  obtain ⟨-, es, hes, rfl⟩ := encodeArray_eq_ok.mp h
  rw [packEach, packEachFrom_map] at hes
  have hkey : ∀ p r e, (do return .ofList (.index p) (← d.encodeOne (Γ.encodeParts r))) =
      (.ok e : Checked Element) → e.key = .index p := by
    intro p r e he
    simp only [Checked.bind_eq_ok, Checked.pure_eq_ok] at he
    obtain ⟨c, -, rfl⟩ := he
    rfl
  refine ⟨es, rfl, (packEachFrom_positions hkey hes).2.imp fun r e he => ?_⟩
  simp only [Checked.bind_eq_ok, Checked.pure_eq_ok] at he
  exact he

theorem Rooms.payload_encodeArray (hd : d.Rooms Γ) {rs : List (Record Value)}
    (hrs : ∀ r ∈ rs, Value.RecordWellFormed r)
    (h : d.encodeArray (rs.map Γ.encodeParts) = .ok l) :
    (ofList i l).payload ≤ rs.length * d.size := by
  obtain ⟨es, rfl, hes⟩ := encodeArray_records h
  have hall : List.Forall₂ (fun _ e => e.payload ≤ d.size) rs es := by
    refine forall₂_imp_mem hes fun r hr e he => ?_
    obtain ⟨p, c, hc, rfl⟩ := he
    exact hd r (hrs r hr) _ c hc
  have hsum := sum_payload_le hall
  rw [List.map_const', List.sum_replicate_nat] at hsum
  rwa [payload_ofList i rfl]

theorem payload_encodeBlock {b : Block (Record Encoder)} (h : d.encodeBlock b = .ok l) :
    ∃ array, d.encodeArray b.items = .ok array ∧
      (ofList i l).payload = (ofList (.name arrayName) array).payload := by
  obtain ⟨array, harray, rfl⟩ := encodeBlock_eq_ok.mp h
  exact ⟨array, harray, payload_block i rfl _ _ rfl⟩

end PodType

def Extent.Rigid : Extent → Prop
  | .bounded _ => False
  | _ => True

def Shape.Rigid : Shape → Prop
  | .array len => len.Rigid
  | _ => True

def Shape.Admits (shape : Shape) (m : Nat) : Prop :=
  ∀ n, shape.recordCount? = some n → m ≤ n ∧ (shape.Rigid → m = n)

theorem Shape.admits_single : Shape.single.Admits 1 := by
  rintro _ ⟨⟩
  exact ⟨Nat.le_refl 1, fun _ => rfl⟩

theorem Shape.admits_array {len : Extent} {m : Nat} (h : len.check m = .ok ()) :
    (Shape.array len).Admits m := by
  intro n hn
  cases len with
  | free => cases hn
  | fixed k =>
    cases hn
    simp only [Extent.check, Checked.guard_eq_ok, and_true] at h
    exact ⟨Nat.le_of_eq h, fun _ => h⟩
  | bounded k =>
    cases hn
    simp only [Extent.check, Checked.guard_eq_ok, and_true] at h
    exact ⟨h, False.elim⟩

theorem Shape.admits_block {α : Type} {dims : Option (List UInt32)} {b : Block α}
    (h : expectDims dims b.dims = .ok ()) (hb : b.WellFormed) :
    (Shape.block dims).Admits b.items.length := by
  intro n hn
  cases dims with
  | none => cases hn
  | some dims =>
    have hn : count? (axes dims) = some n := hn
    simp only [expectDims, Checked.guard_eq_ok, and_true] at h
    subst h
    simp only [Block.WellFormed, dimsCount, hn, Except.ok.injEq] at hb
    exact ⟨Nat.le_of_eq hb.symm, fun _ => hb.symm⟩

namespace Value

def podRecords : Value → List (Record Value)
  | .pod r => [r]
  | .podArray _ rs => rs
  | .podBlock _ b => b.items
  | _ => []

def namedRecords : Value → List NamedRecord
  | .named r => [r]
  | .namedArray _ rs => rs
  | .namedBlock _ b => b.items
  | _ => []

end Value

namespace Scope

variable {Γ : Scope} {v : Value} {i : Key} {e : Element} {k : NumericKind}

theorem payload_scalar (h : Γ.encode v i (.scalar k) = .ok e) : e.payload = k.width := by
  cases v with
  | scalar s =>
    obtain ⟨hk, rfl⟩ := encode_scalar.mp h
    cases hk
    rw [payload_ofArray]
    exact Nat.one_mul _
  | null => cases (encode_null.mp h).1
  | _ => simp [encode, encodePods, encodeNamed, Ty.orOwn] at h

theorem payload_array {len : Extent} (h : Γ.encode v i (.array k len) = .ok e) :
    v = .null ∧ e.payload = 0 ∨
      v ≠ .null ∧ ∃ m, (Shape.array len).Admits m ∧ e.payload = m * k.width := by
  cases v with
  | null =>
    obtain ⟨-, rfl⟩ := encode_null.mp h
    exact .inl ⟨rfl, rfl⟩
  | array a =>
    obtain ⟨len', hty, hlen, rfl⟩ := encode_array.mp h
    cases hty
    exact .inr ⟨nofun, a.length, Shape.admits_array hlen, payload_ofArray i a⟩
  | _ => simp [encode, encodePods, encodeNamed, Ty.orOwn] at h

theorem payload_block {dims : Option (List UInt32)} (hv : v.WellFormed)
    (h : Γ.encode v i (.block k dims) = .ok e) : v = .null ∧ e.payload = 0 ∨
      v ≠ .null ∧ ∃ m, (Shape.block dims).Admits m ∧ e.payload = m * k.width := by
  cases v with
  | null =>
    obtain ⟨-, rfl⟩ := encode_null.mp h
    exact .inl ⟨rfl, rfl⟩
  | block k' b =>
    obtain ⟨dims', hty, hdims, rfl⟩ := encode_block.mp h
    cases hty
    refine .inr ⟨nofun, b.items.length, Shape.admits_block hdims hv, ?_⟩
    rw [Element.payload_block i rfl _ _ rfl, payload_ofArray]
    rfl
  | _ => simp [encode, encodePods, encodeNamed, Ty.orOwn] at h

theorem payload_pods {t : String} {shape : Shape} {d : PodType} (hd : Γ.pod t = .ok d)
    (hv : v.WellFormed) (h : Γ.encode v i (.pod t shape) = .ok e) :
    v = .null ∧ e.payload = 0 ∨ v ≠ .null ∧ shape.Admits v.podRecords.length ∧
      (∀ r ∈ v.podRecords, Value.RecordWellFormed r) ∧
      ∃ j l, d.encodeArray (v.podRecords.map Γ.encodeParts) = .ok l ∧
        e.payload = (ofList j l).payload := by
  cases v with
  | null =>
    obtain ⟨-, rfl⟩ := encode_null.mp h
    exact .inl ⟨rfl, rfl⟩
  | pod r =>
    obtain ⟨t', hty, p, hp, l, hl, rfl⟩ := encode_pod.mp h
    cases hty
    cases hd.symm.trans hp
    exact .inr ⟨nofun, Shape.admits_single, List.forall_mem_singleton.mpr hv, i, l, hl, rfl⟩
  | podArray t' rs =>
    obtain ⟨len, hty, hlen, p, hp, l, hl, rfl⟩ := encode_podArray.mp h
    cases hty
    cases hd.symm.trans hp
    exact .inr ⟨nofun, Shape.admits_array hlen, Value.recordsWellFormed_iff.mp hv, i, l, hl, rfl⟩
  | podBlock t' b =>
    obtain ⟨dims, rs⟩ := b
    obtain ⟨dims', hty, hdims, p, hp, l, hl, rfl⟩ := encode_podBlock.mp h
    cases hty
    cases hd.symm.trans hp
    obtain ⟨array, harray, hpayload⟩ := PodType.payload_encodeBlock (i := i) hl
    have hadmits : (Shape.block dims').Admits rs.length :=
      Shape.admits_block (b := ⟨dims, rs⟩) hdims hv.1
    exact .inr ⟨nofun, hadmits, Value.recordsWellFormed_iff.mp hv.2, _, array, harray, hpayload⟩
  | _ => simp [encode, encodeNamed, Ty.orOwn] at h

theorem payload_named {t : String} {shape : Shape} {d : NamedType} (hd : Γ.named t = .ok d)
    (hv : v.WellFormed) (h : Γ.encode v i (.named t shape) = .ok e) :
    v = .null ∧ e.payload = 0 ∨ v ≠ .null ∧ shape.Admits v.namedRecords.length ∧
      ∃ j l, d.encodeArray v.namedRecords = .ok l ∧ e.payload = (ofList j l).payload := by
  cases v with
  | null =>
    obtain ⟨-, rfl⟩ := encode_null.mp h
    exact .inl ⟨rfl, rfl⟩
  | named r =>
    obtain ⟨t', hty, p, hp, l, hl, rfl⟩ := encode_named.mp h
    cases hty
    cases hd.symm.trans hp
    exact .inr ⟨nofun, Shape.admits_single, i, l, hl, rfl⟩
  | namedArray t' rs =>
    obtain ⟨len, hty, hlen, p, hp, l, hl, rfl⟩ := encode_namedArray.mp h
    cases hty
    cases hd.symm.trans hp
    exact .inr ⟨nofun, Shape.admits_array hlen, i, l, hl, rfl⟩
  | namedBlock t' b =>
    obtain ⟨dims, hty, hdims, p, hp, l, hl, rfl⟩ := encode_namedBlock.mp h
    cases hty
    cases hd.symm.trans hp
    obtain ⟨array, harray, hpayload⟩ := NamedType.payload_encodeBlock (i := i) hl
    exact .inr ⟨nofun, Shape.admits_block hdims hv, _, array, harray, hpayload⟩
  | _ => simp [encode, encodePods, Ty.orOwn] at h

end Scope

mutual

/-- The field holds numbers, or records of the very definition that the scope has of their type. -/
inductive PodMember.Resolved (Γ : Scope) : PodMember → Prop
  | scalar (name k) : PodMember.Resolved Γ (.scalar name k)
  | array (name k len) : PodMember.Resolved Γ (.array name k len)
  | block (name k dims) : PodMember.Resolved Γ (.block name k dims)
  | pod {of} (name shape) : PodType.Resolved Γ of → Γ.pod of.typeName = .ok of →
      PodMember.Resolved Γ (.pod name of shape)
  | named {of f} (name shape) : Γ.named of.typeName = .ok of →
      PodMember.named name of shape = .ok f → PodMember.Resolved Γ f

inductive PodType.Resolved (Γ : Scope) : PodType → Prop
  | make {t members d} : (∀ f ∈ members, PodMember.Resolved Γ f) →
      PodType.make t members = .ok d → PodType.Resolved Γ d

end

def PodMember.room (f : PodMember) : Nat := f.shape.recordCount?.getD 0 * f.unit

theorem PodType.layout_eq_ok {t : String} {size total : Nat} {members : List PodMember}
    (h : layout t size members = .ok total) :
    size + (members.map (·.room)).sum = total ∧
      ∀ f ∈ members, f.shape.recordCount?.isSome := by
  induction members generalizing size with
  | nil =>
    cases h
    exact ⟨rfl, List.forall_mem_nil _⟩
  | cons f fs ih =>
    rw [layout] at h
    cases hn : f.shape.recordCount? with
    | none =>
      rw [hn] at h
      cases h
    | some n =>
      rw [hn] at h
      simp only [Checked.guard_eq_ok] at h
      obtain ⟨hsum, hsome⟩ := ih h.2
      refine ⟨?_, List.forall_mem_cons.mpr ⟨hn ▸ rfl, hsome⟩⟩
      rw [← hsum, List.map_cons, List.sum_cons, PodMember.room, hn, Option.getD_some]
      omega

def PodMember.Roomy (Γ : Scope) (f : PodMember) : Prop :=
  ∀ n, f.shape.recordCount? = some n → ∀ v : Value, v.WellFormed →
    ∀ i e, Γ.encode v i f.ty = .ok e → e.payload ≤ n * f.unit

theorem PodType.fields_of_encodeOne {Γ : Scope} {t : String} {members : List PodMember}
    {d : PodType} (h : PodType.make t members = .ok d) {r : Record Value}
    (hr : Value.RecordWellFormed r) {l : Container Element}
    (hl : d.encodeOne (Γ.encodeParts r) = .ok l) :
    d.fields = members.map (·.toField) ∧ d.size = (members.map PodMember.room).sum ∧
      ∃ es, l = ⟨.struct, some d.typeName, es⟩ ∧ List.Forall₂ (fun f e => ∃ n v,
        f.shape.recordCount? = some n ∧ f.room = n * f.unit ∧ r.field? f.name = some v ∧
          v.WellFormed ∧ Γ.encode v (.name f.name) f.ty = .ok e) members es := by
  simp only [PodType.make, Checked.bind_eq_ok, Checked.exists_unit, Checked.pure_eq_ok] at h
  obtain ⟨_, -, size, hlayout, -, rfl⟩ := h
  obtain ⟨hsum, hsome⟩ := PodType.layout_eq_ok hlayout
  obtain ⟨-, -, es, hes, rfl⟩ := encodeRecord_eq_ok.mp hl
  have hall := (encodeFields_eq_ok.mp hes).2
  rw [List.forall₂_map_left_iff] at hall
  refine ⟨rfl, by rw [← hsum, Nat.zero_add], es, rfl, ?_⟩
  refine forall₂_imp_mem hall fun f hf e he => ?_
  obtain ⟨n, hn⟩ := Option.isSome_iff_exists.mp (hsome f hf)
  obtain ⟨enc, henc, he⟩ := he
  rw [Scope.fields_encodeParts, Entries.get?_map] at henc
  obtain ⟨v, hv, rfl⟩ := Option.map_eq_some_iff.mp henc
  have hwf := (Value.recordWellFormed_iff.mp hr).2 _ (Entries.mem_of_get? hv)
  exact ⟨n, v, hn, by rw [PodMember.room, hn, Option.getD_some], hv, hwf, he⟩

theorem PodType.rooms_of_members {Γ : Scope} {t : String} {members : List PodMember}
    {d : PodType} (hmembers : ∀ f ∈ members, f.Roomy Γ) (h : PodType.make t members = .ok d) :
    d.Rooms Γ := by
  intro r hr i l hl
  obtain ⟨-, hsize, es, rfl, hes⟩ := PodType.fields_of_encodeOne h hr hl
  have hroom : List.Forall₂ (fun f e => e.payload ≤ PodMember.room f) members es := by
    refine forall₂_imp_mem hes fun f hf e he => ?_
    obtain ⟨n, v, hn, hroom, -, hv, he⟩ := he
    rw [hroom]
    exact hmembers f hf n hn v hv _ e he
  rw [payload_ofList i rfl, hsize]
  exact sum_payload_le hroom

theorem PodType.Resolved.rooms {Γ : Scope} {d : PodType} (h : d.Resolved Γ) : d.Rooms Γ := by
  refine @PodType.Resolved.rec Γ (fun f _ => f.Roomy Γ) (fun d _ => d.Rooms Γ)
    ?scalar ?array ?block ?pod ?named ?make d h
  case scalar =>
    intro name k n hn v _ i e he
    cases hn
    exact Nat.le_of_eq ((Scope.payload_scalar he).trans (Nat.one_mul k.width).symm)
  case array =>
    intro name k len n hn v _ i e he
    obtain ⟨-, he⟩ | ⟨-, m, hm, he⟩ := Scope.payload_array he
    · rw [he]
      exact Nat.zero_le _
    · rw [he]
      exact Nat.mul_le_mul_right _ (hm n hn).1
  case block =>
    intro name k dims n hn v hv i e he
    obtain ⟨-, he⟩ | ⟨-, m, hm, he⟩ := Scope.payload_block hv he
    · rw [he]
      exact Nat.zero_le _
    · rw [he]
      exact Nat.mul_le_mul_right _ (hm n hn).1
  case pod =>
    intro of name shape _ hscope hof n hn v hv i e he
    obtain ⟨-, he⟩ | ⟨-, hm, hrs, j, l, hl, he⟩ := Scope.payload_pods hscope hv he
    · rw [he]
      exact Nat.zero_le _
    · rw [he]
      exact Nat.le_trans (hof.payload_encodeArray hrs hl) (Nat.mul_le_mul_right _ (hm n hn).1)
  case named =>
    intro of f name shape hscope hf n hn v hv i e he
    obtain ⟨-, rfl⟩ := PodMember.named_eq_ok.mp hf
    obtain ⟨-, he⟩ | ⟨-, hm, j, l, hl, he⟩ := Scope.payload_named hscope hv he
    · rw [he]
      exact Nat.zero_le _
    · rw [he, NamedType.payload_records hl]
      exact Nat.mul_le_mul_right _ (hm n hn).1
  case make =>
    intro t members d _ hmake hmembers
    exact PodType.rooms_of_members hmembers hmake

namespace ItemCodec

variable {α : Type} {Γ : Scope} {codec : ItemCodec α} {Sound : α → Prop}

/-- The codecs of a scope whose sizes are true, each with the items that are sound: any numbers,
pods whose fields are in order, under a definition that the scope resolves all through, and any
named arrays. -/
inductive Measured (Γ : Scope) : {α : Type} → ItemCodec α → (α → Prop) → Prop
  | numeric (k) : Measured Γ (numeric Γ k) fun _ => True
  | pod {t d codec} : Γ.pod t = .ok d → d.Resolved Γ → ItemCodec.pod Γ t = .ok codec →
      Measured Γ codec Value.RecordWellFormed
  | named {t codec} : ItemCodec.named Γ t = .ok codec → Measured Γ codec fun _ => True

namespace Measured

theorem payload_packFlat (h : codec.Measured Γ Sound) {xs : List α} {e : Element}
    (hxs : ∀ x ∈ xs, Sound x) (he : codec.packFlat xs = .ok e) :
    e.payload ≤ xs.length * codec.size := by
  cases h with
  | numeric k =>
    have hpack : Γ.encode (.array ⟨k, xs⟩) chunkId (.array k .free) = .ok e := he
    obtain ⟨_, -, -, rfl⟩ := Scope.encode_array.mp hpack
    exact Nat.le_of_eq (payload_ofArray ..)
  | @pod t d _ hd hresolved hcodec =>
    obtain ⟨_, hd', rfl⟩ := pod_eq_ok.mp hcodec
    cases hd.symm.trans hd'
    obtain ⟨_, -, -, p, hp, l, hl, rfl⟩ := Scope.encode_podArray.mp he
    cases hd.symm.trans hp
    exact hresolved.rooms.payload_encodeArray hxs hl
  | @named t _ hcodec =>
    obtain ⟨d, hd, -, rfl⟩ := named_eq_ok.mp hcodec
    obtain ⟨_, -, -, p, hp, l, hl, rfl⟩ := Scope.encode_namedArray.mp he
    cases hd.symm.trans hp
    exact Nat.le_of_eq (NamedType.payload_records hl)

theorem payload_packBlock (h : codec.Measured Γ Sound) {b : Block α} {e : Element}
    (hb : ∀ x ∈ b.items, Sound x) (he : codec.packBlock b = .ok e) :
    e.payload ≤ b.items.length * codec.size := by
  cases h with
  | numeric k =>
    obtain ⟨_, hmake, he⟩ := Checked.bind_eq_ok.mp he
    obtain ⟨rfl, -⟩ := Block.make_eq_ok_iff.mp hmake
    obtain ⟨_, -, -, rfl⟩ := Scope.encode_block.mp he
    exact Nat.le_of_eq ((payload_block chunkId rfl _ _ rfl).trans (payload_ofArray ..))
  | @pod t d _ hd hresolved hcodec =>
    obtain ⟨_, hd', rfl⟩ := pod_eq_ok.mp hcodec
    cases hd.symm.trans hd'
    obtain ⟨_, hmake, he⟩ := Checked.bind_eq_ok.mp he
    obtain ⟨rfl, -⟩ := Block.make_eq_ok_iff.mp hmake
    obtain ⟨_, -, -, p, hp, l, hl, rfl⟩ := Scope.encode_podBlock.mp he
    cases hd.symm.trans hp
    obtain ⟨array, harray, hpayload⟩ := PodType.payload_encodeBlock hl
    rw [hpayload]
    exact hresolved.rooms.payload_encodeArray hb harray
  | @named t _ hcodec =>
    obtain ⟨d, hd, -, rfl⟩ := named_eq_ok.mp hcodec
    obtain ⟨_, hmake, he⟩ := Checked.bind_eq_ok.mp he
    obtain ⟨rfl, -⟩ := Block.make_eq_ok_iff.mp hmake
    obtain ⟨_, -, -, p, hp, l, hl, rfl⟩ := Scope.encode_namedBlock.mp he
    cases hd.symm.trans hp
    obtain ⟨array, harray, hpayload⟩ := NamedType.payload_encodeBlock hl
    exact Nat.le_of_eq (hpayload.trans (NamedType.payload_records harray))

end Measured

end ItemCodec

end TypedWire
