import TypedWire.Proofs.Mismatches
import TypedWire.Proofs.Repacking
import TypedWire.Proofs.Codecs

namespace TypedWire

open Checked

@[simp] theorem telling_typeError {α : Type _} (d : Ty) (v : Value) :
    (typeError d v : Checked α).Telling := by
  simp [typeError]

@[simp] theorem telling_refuse {α : Type} (d : Ty) (v : Value) :
    (refuse d v : Checked α).Telling := by
  unfold refuse
  split <;> simp

@[simp] theorem telling_expectName (expected found : String) :
    (expectName expected found).Telling := by
  simp [expectName]

@[simp] theorem telling_expectKind (expected found : NumericKind) :
    (expectKind expected found).Telling := by
  simp [expectKind]

section Encoding

def Encoder.Telling (enc : Encoder) : Prop := ∀ i d, (enc i d).Telling

def Record.Telling (r : Record Encoder) : Prop := ∀ f ∈ r.fields, f.2.Telling

theorem telling_encodeFields (table : List Field) {fields : List (String × Encoder)}
    (h : ∀ f ∈ fields, f.2.Telling) : (encodeFields table fields).Telling := by
  unfold encodeFields
  split
  · simp
  · refine telling_mapM fun f _ => ?_
    split
    · rename_i enc henc
      exact h _ (Entries.mem_of_get? henc) _ _
    · simp

variable {r : Record Encoder} {rs : List (Record Encoder)}

theorem telling_encodeRecord (t : String) (table : List Field) (h : r.Telling) :
    (encodeRecord t table r).Telling := by
  simp [encodeRecord, telling_encodeFields table h]

namespace PodType

variable (d : PodType)

theorem telling_encodeOne (h : r.Telling) : (d.encodeOne r).Telling :=
  telling_encodeRecord d.typeName d.fields h

theorem telling_encodeArray (h : ∀ r ∈ rs, r.Telling) : (d.encodeArray rs).Telling := by
  simp only [encodeArray, telling_bind_iff, Container.telling_make, implies_true, and_true]
  refine telling_packEach fun r hr i => ?_
  simp [d.telling_encodeOne (h r hr)]

theorem telling_encodeBlock (dims : List UInt32) (h : ∀ r ∈ rs, r.Telling) :
    (d.encodeBlock ⟨dims, rs⟩).Telling := by
  simp [encodeBlock, d.telling_encodeArray h]

end PodType

namespace NamedType

variable (d : NamedType)

@[simp] theorem telling_encodeArray (rs : List NamedRecord) : (d.encodeArray rs).Telling := by
  simp [encodeArray, telling_forM]

@[simp] theorem telling_encodeBlock (b : Block NamedRecord) : (d.encodeBlock b).Telling := by
  simp [encodeBlock]

end NamedType

namespace Scope

variable (Γ : Scope)

theorem telling_encodePods (d : Ty) (v : Value) (dims : List UInt32) (h : ∀ r ∈ rs, r.Telling) :
    (Γ.encodePods d v ⟨dims, rs⟩).Telling := by
  unfold encodePods
  split
  · simp [PodType.telling_encodeArray _ h]
  · simp [PodType.telling_encodeArray _ h]
  · simp [PodType.telling_encodeBlock _ _ h]
  · simp

@[simp] theorem telling_encodeNamed (d : Ty) (v : Value) : (Γ.encodeNamed d v).Telling := by
  unfold encodeNamed
  split <;> simp

variable {Γ}

theorem telling_encodeParts {r : Record Value}
    (h : r.Every fun v => Encoder.Telling (Γ.encode v)) :
    (Γ.encodeParts r).Telling := by
  rw [Record.Telling, fields_encodeParts, List.forall_mem_map]
  exact h

theorem telling_encodeAllParts {rs : List (Record Value)}
    (h : ∀ r ∈ rs, r.Every fun v => Encoder.Telling (Γ.encode v)) :
    ∀ r ∈ rs.map Γ.encodeParts, r.Telling :=
  List.forall_mem_map.mpr fun r hr => telling_encodeParts (h r hr)

theorem telling_encode (Γ : Scope) (v : Value) : Encoder.Telling (Γ.encode v) := by
  induction v with
  | null =>
    intro i d
    simp [encode]
  | vector es ih =>
    intro i d
    simp only [encode, encodeVector_eq, List.mapM_map, Function.comp_def]
    have hitems value : (es.mapM fun e => Γ.encode e.2 (.index e.1) value).Telling :=
      telling_mapM fun e he => ih e he _ _
    split
    · refine telling_bind_iff.mpr ⟨Ty.telling_keyKind _, fun kind _ => ?_⟩
      cases kind <;> simp [hitems]
    · simp
  | dictionary es ih =>
    intro i d
    simp only [encode, encodeNamedValues_eq, List.mapM_map, Function.comp_def]
    have hitems value : (es.mapM fun e => Γ.encode e.2 (.name e.1) value).Telling :=
      telling_mapM fun e he => ih e he _ _
    split
    · refine telling_bind_iff.mpr ⟨Ty.telling_keyKind _, fun kind _ => ?_⟩
      cases kind <;> simp [hitems]
    · simp
  | list vs ih =>
    intro i d
    simp only [encode, encodeValues_eq, packEach, packEachFrom_map]
    have hitems item : (packEachFrom 0 (fun p v => Γ.encode v (.index p) item) vs).Telling :=
      telling_packEachFrom (fun v hv p => ih v hv _ _) 0
    split <;> simp [hitems]
  | struct r ih =>
    intro i d
    simp only [encode]
    split
    · simp [StructType.encode, telling_encodeRecord _ _ (telling_encodeParts ih)]
    · simp
  | pod r ih =>
    intro i d
    have hparts := List.forall_mem_singleton.mpr (telling_encodeParts ih)
    simp [encode, Γ.telling_encodePods _ _ _ hparts]
  | podArray t rs ih =>
    intro i d
    simp [encode, Γ.telling_encodePods _ _ _ (telling_encodeAllParts ih)]
  | podBlock t dims rs ih =>
    intro i d
    simp [encode, Γ.telling_encodePods _ _ _ (telling_encodeAllParts ih)]
  | named r =>
    intro i d
    simp [encode]
  | namedArray t rs =>
    intro i d
    simp [encode]
  | namedBlock t b =>
    intro i d
    simp [encode]
  | _ =>
    intro i d
    simp only [encode]
    split <;> simp

@[simp] theorem telling_pack (Γ : Scope) (i : Key) (v : Value) (d : Ty) :
    (Γ.pack i v d).Telling := Γ.telling_encode v i d

@[simp] theorem telling_packAny (Γ : Scope) (i : Key) (v : Value) : (Γ.packAny i v).Telling :=
  Γ.telling_encode v i .any

theorem telling_parts (Γ : Scope) (r : Record Value) : (Γ.encodeParts r).Telling :=
  telling_encodeParts fun f _ => Γ.telling_encode f.2

end Scope

end Encoding

section Decoding

@[simp] theorem Element.telling_listWith (k : ListKind) (e : Element) (children : List Reader) :
    (e.listWith k children).Telling := by
  simp [listWith]

@[simp] theorem Reader.telling_listOf (k : ListKind) (r : Reader) : (r.listOf k).Telling := by
  simp [listOf]

@[simp] theorem telling_only {α : Type} (xs : List α) : (only xs).Telling := by
  unfold only
  split
  · simp
  · rename_i hone
    rw [telling_error_iff]
    exact one_ne_length hone

@[simp] theorem Key.telling_toInt32 (i : Key) : i.toInt32.Telling := by
  unfold toInt32
  split
  · simp
  · split <;> simp

@[simp] theorem Key.telling_toName (i : Key) : i.toName.Telling := by
  unfold toName
  split <;> simp

@[simp] theorem Element.telling_ty (e : Element) : e.ty.Telling := by
  rcases e with i | ⟨i, _ | _, bytes⟩ | ⟨i, kind, t, items⟩
  · simp [ty]
  · simp [ty]
  · simp [ty]
  · cases kind with
    | block =>
      simp only [ty]
      split
      · split <;> simp
      · simp
    | _ => cases t <;> simp [ty]

@[simp] theorem Ty.telling_orTag (d : Ty) (e : Element) : (d.orTag e).Telling := by
  unfold orTag
  split <;> simp

theorem telling_decodeFields (table : List Field) {c : NamedChildren Reader}
    (h : ∀ x ∈ c.entries, ∀ d, (x.2.read d).Telling) : (decodeFields table c).Telling := by
  induction table generalizing c with
  | nil => simp [decodeFields]
  | cons f table ih =>
    simp only [decodeFields, telling_bind_iff, NamedChildren.telling_take, true_and]
    rintro ⟨r, rest⟩ htake
    obtain ⟨hr, hrest⟩ := NamedChildren.mem_of_take htake
    simp [h _ hr f.ty, ih fun x hx => h x (hrest x hx)]

theorem telling_decodeEntries {κ : Type} [DecidableEq κ] [LT κ] [DecidableLT κ]
    {key : Key → Checked κ} (text : κ → String) {value : Ty} {rs : List Reader}
    (hkey : ∀ i, (key i).Telling) (hrs : ∀ r ∈ rs, (r.read value).Telling)
    (seen : List (κ × Value)) : (decodeEntries key text value seen rs).Telling := by
  induction rs generalizing seen with
  | nil => simp [decodeEntries]
  | cons r rs ih =>
    obtain ⟨hr, hrs⟩ := List.forall_mem_cons.mp hrs
    simp [decodeEntries, hkey, hr, ih hrs]

namespace Scope

variable {Γ : Scope} {l : Container Element} {e : Element}

def Tells (Γ : Scope) (e : Element) : Prop := ∀ d, (Γ.unpack e d).Telling

theorem telling_decodeRecord (what t : String) (table : List Field)
    (hl : ∀ c ∈ l.items, Γ.Tells c) : (decodeRecord what t table (Γ.readerList l)).Telling := by
  simp only [decodeRecord, telling_bind_iff, Container.telling_expectKind,
    Container.telling_expectType, NamedChildren.telling_ofList, true_and]
  intro _ _ _ _ c hc
  have hread : ∀ x ∈ c.entries, ∀ d, (x.2.read d).Telling := by
    intro x hx
    have hmem := NamedChildren.mem_of_listed (NamedChildren.ofList_eq_ok.mp hc).1 hx
    obtain ⟨e, he, hxe⟩ := List.mem_map.mp hmem
    rw [← hxe]
    exact hl e he
  simp [telling_decodeFields table hread]

theorem telling_decodePodArray (p : PodType) (hl : ∀ c ∈ l.items, c.Everywhere Γ.Tells) :
    (p.decodeArray (Γ.readerList l)).Telling := by
  simp only [PodType.decodeArray, telling_bind_iff, Container.telling_expectKind,
    Container.telling_expectType, telling_expectPositions, true_and]
  intro _ _ _ _ _ _
  refine telling_mapM fun r hr => ?_
  obtain ⟨c, hc, rfl⟩ := List.mem_map.mp hr
  refine telling_bind_iff.mpr ⟨Reader.telling_listOf _ _, fun one hone => ?_⟩
  obtain ⟨l', hl', rfl⟩ := readerList_listOf.mp hone
  refine telling_decodeRecord _ _ _ ?_
  rw [← Element.children_of_listOf hl']
  exact fun x hx => ((hl c hc).inside x hx).here

theorem telling_decodePodBlock (p : PodType) (hl : ∀ c ∈ l.items, c.Everywhere Γ.Tells) :
    (p.decodeBlock (Γ.readerList l)).Telling := by
  simp only [PodType.decodeBlock, telling_bind_iff, Container.telling_expectKind,
    Container.telling_expectType, telling_unwrapBlock, Reader.telling_listOf, true_and]
  rintro _ _ _ _ ⟨dims, array⟩ hunwrap la hla
  obtain ⟨c, hc, rfl⟩ := List.mem_map.mp (mem_of_unwrapBlock hunwrap)
  obtain ⟨l', hl', rfl⟩ := readerList_listOf.mp hla
  have hinside : ∀ x ∈ l'.items, x.Everywhere Γ.Tells := by
    rw [← Element.children_of_listOf hl']
    exact (hl c hc).inside
  simp [telling_decodePodArray p hinside]

theorem telling_decodeNamedArray {d : NamedType} (hd : d.count ≠ 0) (l : Container Element) :
    (d.decodeArray l).Telling := by
  have hsplit (a : Numbers) : (a.split d.count).Telling :=
    (a.telling_split_iff d.count).mpr fun h => hd h.1
  simp [NamedType.decodeArray, hsplit]

theorem telling_decodeNamedBlock {d : NamedType} (hd : d.count ≠ 0) (l : Container Element) :
    (d.decodeBlock l).Telling := by
  simp [NamedType.decodeBlock, telling_decodeNamedArray hd]

theorem telling_of_listWith {β : Type} {k : ListKind} {P : Element → Prop}
    (he : ∀ c ∈ e.children, P c) {f : Container Reader → Checked β}
    (hf : ∀ l : Container Element, (∀ c ∈ l.items, P c) → (f (Γ.readerList l)).Telling) :
    (e.listWith k (e.children.map Γ.reader) >>= f).Telling := by
  refine telling_bind_iff.mpr ⟨Element.telling_listWith _ _ _, fun l hl => ?_⟩
  obtain ⟨c, hc, rfl⟩ := listWith_eq_ok.mp hl
  rw [Element.children_of_listOf hc] at he
  exact hf c he

theorem telling_decodePods (t : String) (shape : Shape)
    (he : ∀ c ∈ e.children, c.Everywhere Γ.Tells) :
    (Γ.decodePods t shape e (e.children.map Γ.reader)).Telling := by
  refine telling_bind_iff.mpr ⟨Γ.telling_pod t, fun p _ => ?_⟩
  cases shape with
  | single =>
    refine telling_of_listWith he fun l hl => ?_
    simp [telling_decodePodArray p hl]
  | array len =>
    refine telling_of_listWith he fun l hl => ?_
    simp [telling_decodePodArray p hl]
  | block dims =>
    refine telling_of_listWith he fun l hl => ?_
    simp [telling_decodePodBlock p hl]

theorem telling_decodeNamed (hΓ : Γ.Built) (t : String) (shape : Shape) (e : Element) :
    (Γ.decodeNamed t shape e).Telling := by
  refine telling_bind_iff.mpr ⟨Γ.telling_named t, fun d hd => ?_⟩
  have hcount : d.count ≠ 0 := (hΓ.named hd).2.count_ne_zero
  cases shape <;> simp [telling_decodeNamedArray hcount, telling_decodeNamedBlock hcount]

theorem telling_decodeAs (hΓ : Γ.Built) (he : ∀ c ∈ e.children, c.Everywhere Γ.Tells) (d : Ty) :
    (Γ.decodeAs e (e.children.map Γ.reader) d).Telling := by
  have hitems {l : Container Element} (hl : ∀ c ∈ l.items, c.Everywhere Γ.Tells) (d : Ty) :
      ∀ r ∈ (Γ.readerList l).items, (r.read d).Telling :=
    List.forall_mem_map.mpr fun c hc => (hl c hc).here d
  cases d with
  | map key value =>
    refine telling_bind_iff.mpr ⟨key.telling_keyKind, fun kind _ => ?_⟩
    cases kind with
    | int32 =>
      refine telling_of_listWith he fun l hl => ?_
      simp [telling_decodeEntries _ Key.telling_toInt32 (hitems hl value)]
    | text =>
      refine telling_of_listWith he fun l hl => ?_
      simp [telling_decodeEntries _ Key.telling_toName (hitems hl value)]
  | list item =>
    refine telling_of_listWith he fun l hl => ?_
    simp [telling_mapM (hitems hl item)]
  | struct t =>
    refine telling_of_listWith he fun l hl => ?_
    have hrecord (d : StructType) : (d.decode (Γ.readerList l)).Telling :=
      telling_decodeRecord _ _ _ fun c hc => (hl c hc).here
    simp [hrecord]
  | pod t shape => exact telling_decodePods t shape he
  | named t shape => exact telling_decodeNamed hΓ t shape e
  | _ => simp [decodeAs]

theorem everywhere_tells (hΓ : Γ.Built) (e : Element) : e.Everywhere Γ.Tells := by
  refine e.everywhere fun e he d => ?_
  rw [unpack_eq]
  simp [decodeWith, telling_decodeAs hΓ he]

theorem telling_unpack (hΓ : Γ.Built) (e : Element) (d : Ty) : (Γ.unpack e d).Telling :=
  (everywhere_tells hΓ e).here d

theorem telling_unpackAs (hΓ : Γ.Built) (e : Element) (d : Ty) (t : HostType) :
    (Γ.unpackAs e d t).Telling := by
  simp [unpackAs, telling_unpack hΓ]

end Scope

@[simp] theorem Element.telling_item (k : NumericKind) (e : Element) : (e.item k).Telling := by
  simp [item]

end Decoding

structure ItemCodec.Telling {α : Type} (codec : ItemCodec α) : Prop where
  packFlat : ∀ xs, (codec.packFlat xs).Telling
  unpackFlat : ∀ e, (codec.unpackFlat e).Telling
  packBlock : ∀ b, (codec.packBlock b).Telling
  unpackBlock : ∀ e, (codec.unpackBlock e).Telling

namespace ItemCodec

variable {Γ : Scope}

@[simp] theorem telling_pod (Γ : Scope) (t : String) : (pod Γ t).Telling := by
  simp [pod]

@[simp] theorem telling_named (Γ : Scope) (t : String) : (named Γ t).Telling := by
  simp [named]

theorem OfScope.telling {α : Type} {codec : ItemCodec α} {Sound : α → Prop} (hΓ : Γ.Built)
    (h : codec.OfScope Γ Sound) : codec.Telling := by
  have hread {β : Type} {f : Value → Checked β} (e : Element) (d : Ty) (hf : ∀ v, (f v).Telling) :
      (Γ.unpack e d >>= f).Telling :=
    telling_bind_iff.mpr ⟨Γ.telling_unpack hΓ e d, fun v _ => hf v⟩
  cases h with
  | numeric k =>
    refine ⟨fun xs => by simp [ItemCodec.numeric], fun e => ?_,
      fun b => by simp [ItemCodec.numeric], fun e => ?_⟩
    · refine hread e _ fun v => ?_
      split <;> simp
    · refine hread e _ fun v => ?_
      split <;> simp
  | pod hcodec =>
    obtain ⟨p, -, rfl⟩ := ItemCodec.pod_eq_ok.mp hcodec
    refine ⟨fun xs => by simp [ItemCodec.ofPods], fun e => ?_,
      fun b => by simp [ItemCodec.ofPods], fun e => ?_⟩
    · refine hread e _ fun v => ?_
      split <;> simp
    · refine hread e _ fun v => ?_
      split <;> simp
  | named hcodec =>
    obtain ⟨d, -, -, rfl⟩ := ItemCodec.named_eq_ok.mp hcodec
    refine ⟨fun xs => by simp [ItemCodec.ofNamed], fun e => ?_,
      fun b => by simp [ItemCodec.ofNamed], fun e => ?_⟩
    · refine hread e _ fun v => ?_
      split <;> simp
    · refine hread e _ fun v => ?_
      split <;> simp

end ItemCodec

end TypedWire
