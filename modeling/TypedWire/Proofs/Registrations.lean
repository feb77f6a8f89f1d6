import TypedWire.Proofs.Built
import TypedWire.Proofs.Children
import TypedWire.Proofs.Parts

/-!
Later registrations: a codec that has answered keeps to its answer when more namespaces are
registered. Only an answer that a type is not known may turn into another.

`Lasts` compares the two runs; a step that looks nothing up takes results that are alike to results
that are alike, and every look-up lasts (`Scope.Within.definition`).
-/

namespace TypedWire

def Checked.Known {α : Type} (x : Checked α) : Prop := ∀ q, x ≠ .error (.serviceTypeNotFound q)

/-- The second outcome is the first, or the first stopped at a type that was not known. -/
inductive Lasts {α β : Type} (R : α → β → Prop) : Checked α → Checked β → Prop
  | ok {a b} : R a b → Lasts R (.ok a) (.ok b)
  | error (e) : Lasts R (.error e) (.error e)
  | unknown (q y) : Lasts R (.error (.serviceTypeNotFound q)) y

namespace Lasts

variable {α β γ δ : Type} {R : α → β → Prop} {S : γ → δ → Prop}

theorem refl (x : Checked α) : Lasts Eq x x := by
  cases x with
  | error e => exact .error e
  | ok a => exact .ok rfl

theorem eq_of_known {x y : Checked α} (h : Lasts Eq x y) (hx : x.Known) : y = x := by
  cases h with
  | ok h => rw [h]
  | error e => rfl
  | unknown q y => exact absurd rfl (hx q)

theorem bind {x : Checked α} {y : Checked β} {f : α → Checked γ} {g : β → Checked δ}
    (h : Lasts R x y) (hfg : ∀ a b, R a b → Lasts S (f a) (g b)) :
    Lasts S (x >>= f) (y >>= g) := by
  cases h with
  | ok h => exact hfg _ _ h
  | error e => exact .error e
  | unknown q y => exact .unknown q _

theorem bind_eq {x y : Checked α} {f : α → Checked γ} {g : α → Checked δ} (h : Lasts Eq x y)
    (hfg : ∀ a, Lasts S (f a) (g a)) : Lasts S (x >>= f) (y >>= g) :=
  h.bind fun a _ hab => hab ▸ hfg a

theorem step (x : Checked α) {f : α → Checked γ} {g : α → Checked δ}
    (hfg : ∀ a, Lasts S (f a) (g a)) : Lasts S (x >>= f) (x >>= g) :=
  (refl x).bind_eq hfg

theorem bind_same {x y : Checked α} (h : Lasts Eq x y) (f : α → Checked γ) :
    Lasts Eq (x >>= f) (y >>= f) :=
  h.bind_eq fun _ => refl _

theorem mapM {xs : List α} {ys : List β} {f : α → Checked γ} {g : β → Checked γ}
    (h : List.Forall₂ (fun x y => Lasts Eq (f x) (g y)) xs ys) :
    Lasts Eq (xs.mapM f) (ys.mapM g) := by
  induction h with
  | nil => exact refl _
  | cons hxy _ ih =>
    simp only [List.mapM_cons]
    refine hxy.bind_eq fun c => ?_
    exact ih.bind_same _

theorem mapM_same {xs : List α} {f g : α → Checked γ} (h : ∀ x ∈ xs, Lasts Eq (f x) (g x)) :
    Lasts Eq (xs.mapM f) (xs.mapM g) :=
  mapM (List.forall₂_same.mpr h)

theorem packEachFrom {xs : List α} {pack pack' : Int32 → α → Checked Element}
    (h : ∀ x ∈ xs, ∀ i, Lasts Eq (pack i x) (pack' i x)) (n : Nat) :
    Lasts Eq (TypedWire.packEachFrom n pack xs) (TypedWire.packEachFrom n pack' xs) := by
  induction xs generalizing n with
  | nil => exact refl _
  | cons x xs ih =>
    obtain ⟨hx, hxs⟩ := List.forall_mem_cons.mp h
    simp only [TypedWire.packEachFrom]
    refine step _ fun i => (hx i).bind_eq fun e => ?_
    exact (ih hxs (n + 1)).bind_same _

end Lasts

namespace Registry

def registerAll (r : Registry) (ss : List Service) : Registry :=
  ss.foldl (fun r s => (r.register s).toOption.getD r) r

theorem get?_of_register {r r' : Registry} {s own : Service} {ns : String}
    (h : r.register s = .ok r') (hown : r.get? ns = some own) : r'.get? ns = some own := by
  rw [get?_register h]
  split
  · rename_i hs
    subst hs
    simp [register, hown] at h
  · exact hown

theorem get?_registerAll {r : Registry} (ss : List Service) {ns : String} {own : Service}
    (hown : r.get? ns = some own) : (r.registerAll ss).get? ns = some own := by
  induction ss generalizing r with
  | nil => exact hown
  | cons s ss ih =>
    rw [registerAll, List.foldl_cons]
    apply ih
    cases h : r.register s with
    | error e => exact hown
    | ok r' => exact get?_of_register h hown

end Registry

def Scope.Within (Γ Γ' : Scope) : Prop := ∀ ns s, Γ.service? ns = some s → Γ'.service? ns = some s

def Scope.later (Γ : Scope) (ss : List Service) : Scope :=
  { Γ with registry := Γ.registry.registerAll ss }

theorem Scope.within_later (Γ : Scope) (ss : List Service) : Γ.Within (Γ.later ss) := by
  intro ns s h
  unfold Scope.service? at h ⊢
  split at h
  · rename_i own howns
    simp only [later, howns]
    split at h
    · rename_i hname
      rw [if_pos hname, h]
    · rename_i hname
      rw [if_neg hname]
      exact Registry.get?_registerAll ss h
  · rename_i hown
    simp only [later, hown]
    exact Registry.get?_registerAll ss h

def Scope.PackAlike (Γ Γ' : Scope) (v : Value) : Prop :=
  ∀ i d, Lasts Eq (Γ.encode v i d) (Γ'.encode v i d)

namespace Scope.PackAlike

variable {Γ Γ' : Scope}

theorem fields (table : List Field) {fields : List (String × Value)}
    (h : ∀ e ∈ fields, Γ.PackAlike Γ' e.2) :
    Lasts Eq (encodeFields table (fields.map fun e => (e.1, Γ.encode e.2)))
      (encodeFields table (fields.map fun e => (e.1, Γ'.encode e.2))) := by
  simp only [encodeFields, List.map_map, Function.comp_def, Entries.get?_map]
  split
  · exact .error _
  · refine .mapM_same fun f _ => ?_
    cases hv : Entries.get? f.name fields with
    | none => exact .error _
    | some v => exact h _ (Entries.mem_of_get? hv) _ _

theorem record (t : String) (table : List Field) {r : Record Value}
    (h : r.Every (Γ.PackAlike Γ')) :
    Lasts Eq (encodeRecord t table (Γ.encodeParts r))
      (encodeRecord t table (Γ'.encodeParts r)) := by
  simp only [encodeRecord, typeName_encodeParts, fields_encodeParts]
  exact .step _ fun _ => (fields table h).bind_same _

theorem podArray (p : PodType) {rs : List (Record Value)}
    (h : ∀ r ∈ rs, r.Every (Γ.PackAlike Γ')) :
    Lasts Eq (p.encodeArray (rs.map Γ.encodeParts)) (p.encodeArray (rs.map Γ'.encodeParts)) := by
  simp only [PodType.encodeArray, packEach, packEachFrom_map]
  refine (Lasts.packEachFrom (fun r hr i => ?_) 0).bind_same _
  exact (record p.typeName p.fields (h r hr)).bind_same _

end Scope.PackAlike

namespace Scope.Within

variable {Γ Γ' : Scope}

theorem definition (h : Γ.Within Γ') {δ : Type} (find : Service → String → Option δ) (q : String) :
    Lasts Eq (Γ.definition find q) (Γ'.definition find q) := by
  refine .step _ fun (ns, name) => ?_
  cases hs : Γ.service? ns with
  | none =>
    simp only [hs, Option.bind_none]
    exact .unknown q _
  | some s =>
    simp only [hs, h ns s hs]
    exact .refl _

theorem encodePods (h : Γ.Within Γ') (d : Ty) (v : Value) (dims : List UInt32)
    (rs : List (Record Value)) (hrs : ∀ r ∈ rs, r.Every (Γ.PackAlike Γ')) :
    Lasts Eq (Γ.encodePods d v ⟨dims, rs.map Γ.encodeParts⟩)
      (Γ'.encodePods d v ⟨dims, rs.map Γ'.encodeParts⟩) := by
  unfold Scope.encodePods
  split
  · refine (h.definition _ _).bind_eq fun p => ?_
    exact PackAlike.podArray p hrs
  · simp only [List.length_map]
    refine .step _ fun _ => .step _ fun _ => (h.definition _ _).bind_eq fun p => ?_
    exact PackAlike.podArray p hrs
  · refine .step _ fun _ => .step _ fun _ => (h.definition _ _).bind_eq fun p => ?_
    exact (PackAlike.podArray p hrs).bind_same _
  · exact .refl _

theorem encodeNamed (h : Γ.Within Γ') (d : Ty) (v : Value) :
    Lasts Eq (Γ.encodeNamed d v) (Γ'.encodeNamed d v) := by
  unfold Scope.encodeNamed
  split
  · exact (h.definition _ _).bind_same _
  · exact .step _ fun _ => .step _ fun _ => (h.definition _ _).bind_same _
  · exact .step _ fun _ => .step _ fun _ => (h.definition _ _).bind_same _
  · exact .refl _

theorem encode (h : Γ.Within Γ') (v : Value) : Γ.PackAlike Γ' v := by
  induction v with
  | vector es ih =>
    intro i d
    simp only [Scope.encode, encodeVector_eq, List.mapM_map, Function.comp_def]
    split
    · refine .step _ fun k => ?_
      cases k with
      | int32 => exact (Lasts.mapM_same fun e he => ih e he _ _).bind_same _
      | text => exact .refl _
    · exact .refl _
  | dictionary es ih =>
    intro i d
    simp only [Scope.encode, encodeNamedValues_eq, List.mapM_map, Function.comp_def]
    split
    · refine .step _ fun k => ?_
      cases k with
      | int32 => exact .refl _
      | text => exact (Lasts.mapM_same fun e he => ih e he _ _).bind_same _
    · exact .refl _
  | list vs ih =>
    intro i d
    simp only [Scope.encode, encodeValues_eq, packEach, packEachFrom_map]
    split
    · exact (Lasts.packEachFrom (fun v hv p => ih v hv _ _) 0).bind_same _
    · exact .refl _
  | struct r ih =>
    intro i d
    simp only [Scope.encode]
    split
    · refine .step _ fun _ => (h.definition _ _).bind_eq fun s => ?_
      exact (PackAlike.record s.typeName s.fields ih).bind_same _
    · exact .refl _
  | pod r ih =>
    intro i d
    simp only [Scope.encode]
    exact (h.encodePods _ _ [] [r] (List.forall_mem_singleton.mpr ih)).bind_same _
  | podArray t rs ih =>
    intro i d
    simp only [Scope.encode, encodeAllParts_eq]
    exact (h.encodePods _ _ [] rs ih).bind_same _
  | podBlock t dims rs ih =>
    intro i d
    simp only [Scope.encode, encodeAllParts_eq]
    exact (h.encodePods _ _ dims rs ih).bind_same _
  | named r => exact fun i d => (h.encodeNamed _ _).bind_same _
  | namedArray t rs => exact fun i d => (h.encodeNamed _ _).bind_same _
  | namedBlock t b => exact fun i d => (h.encodeNamed _ _).bind_same _
  | _ => exact fun i d => .refl _

end Scope.Within

inductive Reader.Alike : Reader → Reader → Prop
  | mk {e cs cs' f f'} : List.Forall₂ Reader.Alike cs cs' → (∀ d, Lasts Eq (f d) (f' d)) →
      Reader.Alike (.mk e cs f) (.mk e cs' f')

namespace Reader.Alike

variable {r r' : Reader} {rs rs' : List Reader}

theorem element (h : r.Alike r') : r.element = r'.element := by
  cases h
  rfl

theorem children (h : r.Alike r') : List.Forall₂ Reader.Alike r.children r'.children := by
  cases h
  assumption

theorem read (h : r.Alike r') (d : Ty) : Lasts Eq (r.read d) (r'.read d) := by
  cases h with
  | mk _ hread => exact hread d

theorem keys (h : List.Forall₂ Reader.Alike rs rs') :
    rs.map (·.element.key) = rs'.map (·.element.key) := by
  induction h with
  | nil => rfl
  | cons hr _ ih => rw [List.map_cons, List.map_cons, hr.element, ih]

end Reader.Alike

def AlikeUnder {κ : Type} (a b : κ × Reader) : Prop := a.1 = b.1 ∧ a.2.Alike b.2

def AlikeChildren (c c' : NamedChildren Reader) : Prop :=
  List.Forall₂ AlikeUnder c.entries c'.entries

namespace AlikeChildren

variable {c c' : NamedChildren Reader} {xs ys : List (String × Reader)}

theorem names (h : List.Forall₂ AlikeUnder xs ys) : xs.map (·.1) = ys.map (·.1) := by
  induction h with
  | nil => rfl
  | cons hab _ ih => rw [List.map_cons, List.map_cons, hab.1, ih]

theorem extend {as bs : List (Key × Reader)} (hseen : List.Forall₂ AlikeUnder xs ys)
    (h : List.Forall₂ AlikeUnder as bs) :
    Lasts AlikeChildren (NamedChildren.extend xs as) (NamedChildren.extend ys bs) := by
  induction h generalizing xs ys with
  | nil => exact .ok hseen
  | @cons a b as bs hab _ ih =>
    obtain ⟨k, r⟩ := a
    obtain ⟨k', r'⟩ := b
    obtain ⟨rfl, hr⟩ : k = k' ∧ r.Alike r' := hab
    cases k with
    | index i => exact .error _
    | name s =>
      have hany : xs.any (·.1 = s) = ys.any (·.1 = s) := by
        simpa [List.any_map, Function.comp_def] using
          congrArg (List.any · (· = s)) (names hseen)
      simp only [NamedChildren.extend, hany]
      split
      · exact .error _
      · exact ih (List.rel_append hseen (.cons ⟨rfl, hr⟩ .nil))

theorem ofList {rs rs' : List Reader} (h : List.Forall₂ Reader.Alike rs rs') :
    Lasts AlikeChildren (NamedChildren.ofList (rs.map fun r => (r.element.key, r)))
      (NamedChildren.ofList (rs'.map fun r => (r.element.key, r))) := by
  refine extend .nil ?_
  rw [List.forall₂_map_left_iff, List.forall₂_map_right_iff]
  exact h.imp fun r r' hr => ⟨by rw [hr.element], hr⟩

theorem filter (h : List.Forall₂ AlikeUnder xs ys) (s : String) :
    List.Forall₂ AlikeUnder (xs.filter (·.1 ≠ s)) (ys.filter (·.1 ≠ s)) := by
  induction h with
  | nil => exact .nil
  | @cons a b xs ys hab _ ih =>
    simp only [List.filter_cons, hab.1]
    split
    · exact .cons hab ih
    · exact ih

theorem take (h : AlikeChildren c c') (s : String) :
    Lasts (fun p q => p.1.Alike q.1 ∧ AlikeChildren p.2 q.2) (c.take s) (c'.take s) := by
  have hs := NamedChildren.rel_lookup h s
  simp only [NamedChildren.take]
  generalize c.entries.lookup s = x, c'.entries.lookup s = y at hs ⊢
  cases hs with
  | none => exact .error _
  | some hr => exact .ok ⟨hr, filter h s⟩

theorem expectNone (h : AlikeChildren c c') : c.expectNone = c'.expectNone := by
  rw [NamedChildren.expectNone, NamedChildren.expectNone, names h]

end AlikeChildren

inductive AlikeList : Container Reader → Container Reader → Prop
  | mk {kind t rs rs'} : List.Forall₂ Reader.Alike rs rs' → AlikeList ⟨kind, t, rs⟩ ⟨kind, t, rs'⟩

section Decoding

variable {l l' : Container Reader} {rs rs' : List Reader}

theorem Reader.Alike.listWith (h : List.Forall₂ Reader.Alike rs rs') (k : ListKind) (e : Element) :
    Lasts AlikeList (e.listWith k rs) (e.listWith k rs') := by
  exact .step _ fun _ => .ok (.mk h)

theorem Reader.Alike.listOf {r r' : Reader} (h : r.Alike r') (k : ListKind) :
    Lasts AlikeList (r.listOf k) (r'.listOf k) := by
  rw [Reader.listOf, Reader.listOf, h.element]
  exact listWith h.children k _

theorem AlikeChildren.decodeFields (table : List Field) {c c' : NamedChildren Reader}
    (h : AlikeChildren c c') :
    Lasts (fun p q => p.1 = q.1 ∧ AlikeChildren p.2 q.2) (TypedWire.decodeFields table c)
      (TypedWire.decodeFields table c') := by
  induction table generalizing c c' with
  | nil => exact .ok ⟨rfl, h⟩
  | cons f fs ih =>
    simp only [TypedWire.decodeFields]
    refine (h.take f.name).bind fun (r, c) (r', c') ⟨hr, hc⟩ => ?_
    refine (hr.read f.ty).bind_eq fun v => ?_
    refine (ih hc).bind fun (vs, c) (vs', c') ⟨hvs, hc⟩ => ?_
    cases hvs
    exact .ok ⟨rfl, hc⟩

theorem AlikeList.decodeRecord (h : AlikeList l l') (what t : String) (table : List Field) :
    Lasts Eq (TypedWire.decodeRecord what t table l) (TypedWire.decodeRecord what t table l') := by
  cases h with
  | mk h =>
    refine .step (Container.expectKind ..) fun _ => .step (Container.expectType ..) fun _ => ?_
    refine (AlikeChildren.ofList h).bind fun c c' hc => ?_
    refine (hc.decodeFields table).bind fun (fields, c) (fields', c') ⟨hf, hc⟩ => ?_
    cases hf
    simp only [hc.expectNone]
    exact .refl _

theorem AlikeList.decodePodArray (h : AlikeList l l') (p : PodType) :
    Lasts Eq (p.decodeArray l) (p.decodeArray l') := by
  cases h with
  | mk h =>
    refine .step (Container.expectKind ..) fun _ => .step (Container.expectType ..) fun _ => ?_
    simp only [Reader.Alike.keys h]
    refine .step _ fun _ => .mapM (h.imp fun r r' hr => ?_)
    exact (hr.listOf .struct).bind fun l l' hl => hl.decodeRecord ..

theorem Reader.Alike.unwrapBlock (h : List.Forall₂ Reader.Alike rs rs') :
    Lasts (fun p q => p.1 = q.1 ∧ p.2.Alike q.2) (TypedWire.unwrapBlock Reader.element rs)
      (TypedWire.unwrapBlock Reader.element rs') := by
  refine (AlikeChildren.ofList h).bind fun c c' hc => ?_
  refine (hc.take dimsName).bind fun (dims, c) (dims', c') ⟨hdims, hc⟩ => ?_
  simp only [hdims.element]
  refine .step _ fun _ => .step _ fun axes => ?_
  refine (hc.take arrayName).bind fun (array, c) (array', c') ⟨harray, hc⟩ => ?_
  simp only [hc.expectNone]
  exact .step _ fun _ => .ok ⟨rfl, harray⟩

theorem AlikeList.decodePodBlock (h : AlikeList l l') (p : PodType) :
    Lasts Eq (p.decodeBlock l) (p.decodeBlock l') := by
  cases h with
  | mk h =>
    refine .step (Container.expectKind ..) fun _ => .step (Container.expectType ..) fun _ => ?_
    refine (Reader.Alike.unwrapBlock h).bind fun (dims, array) (dims', array') ⟨hd, harray⟩ => ?_
    cases hd
    refine (harray.listOf .podArray).bind fun l l' hl => ?_
    exact (hl.decodePodArray p).bind_same _

theorem Reader.Alike.decodeEntries {κ : Type} [DecidableEq κ] [LT κ] [DecidableLT κ]
    (key : Key → Checked κ) (text : κ → String) (value : Ty)
    (h : List.Forall₂ Reader.Alike rs rs') (seen : List (κ × Value)) :
    Lasts Eq (TypedWire.decodeEntries key text value seen rs)
      (TypedWire.decodeEntries key text value seen rs') := by
  induction h generalizing seen with
  | nil => exact .refl _
  | cons hr _ ih =>
    simp only [TypedWire.decodeEntries, hr.element]
    refine .step _ fun k => ?_
    split
    · exact .refl _
    · refine (hr.read value).bind_eq fun v => ?_
      exact ih _

end Decoding

namespace Scope.Within

variable {Γ Γ' : Scope}

theorem decodePods (h : Γ.Within Γ') (t : String) (shape : Shape) (e : Element)
    {cs cs' : List Reader} (hcs : List.Forall₂ Reader.Alike cs cs') :
    Lasts Eq (Γ.decodePods t shape e cs) (Γ'.decodePods t shape e cs') := by
  refine (h.definition _ _).bind_eq fun p => ?_
  cases shape with
  | single =>
    refine (Reader.Alike.listWith hcs .podArray e).bind fun l l' hl => ?_
    exact (hl.decodePodArray p).bind_same _
  | array len =>
    refine (Reader.Alike.listWith hcs .podArray e).bind fun l l' hl => ?_
    exact (hl.decodePodArray p).bind_same _
  | block dims =>
    refine (Reader.Alike.listWith hcs .podBlock e).bind fun l l' hl => ?_
    exact (hl.decodePodBlock p).bind_same _

theorem decodeAs (h : Γ.Within Γ') (e : Element) {cs cs' : List Reader}
    (hcs : List.Forall₂ Reader.Alike cs cs') (d : Ty) :
    Lasts Eq (Γ.decodeAs e cs d) (Γ'.decodeAs e cs' d) := by
  cases d with
  | map key value =>
    refine .step _ fun k => ?_
    cases k with
    | int32 =>
      refine (Reader.Alike.listWith hcs .vector e).bind fun l l' hl => ?_
      cases hl with
      | mk hrs => exact (Reader.Alike.decodeEntries _ _ value hrs []).bind_same _
    | text =>
      refine (Reader.Alike.listWith hcs .dictionary e).bind fun l l' hl => ?_
      cases hl with
      | mk hrs => exact (Reader.Alike.decodeEntries _ _ value hrs []).bind_same _
  | list item =>
    refine (Reader.Alike.listWith hcs .list e).bind fun l l' hl => ?_
    cases hl with
    | mk hrs =>
      simp only [Reader.Alike.keys hrs]
      refine .step _ fun _ => Lasts.bind_same (.mapM (hrs.imp fun r r' hr => ?_)) _
      exact hr.read item
  | struct t =>
    refine (Reader.Alike.listWith hcs .struct e).bind fun l l' hl => ?_
    have htype : l.expectType t = l'.expectType t := by cases hl; rfl
    rw [htype]
    refine .step _ fun _ => (h.definition _ _).bind_eq fun s => ?_
    exact (hl.decodeRecord ..).bind_same _
  | pod t shape => exact h.decodePods t shape e hcs
  | named t shape => exact (h.definition _ _).bind_same _
  | _ => exact .refl _

theorem reader (h : Γ.Within Γ') (e : Element) : (Γ.reader e).Alike (Γ'.reader e) := by
  have hread {e : Element} {cs cs' : List Reader} (hcs : List.Forall₂ Reader.Alike cs cs')
      (d : Ty) : Lasts Eq (Γ.decodeWith e cs d) (Γ'.decodeWith e cs' d) := by
    unfold Scope.decodeWith
    split
    · exact .refl _
    · exact .step _ fun d => h.decodeAs e hcs d
  induction e with
  | void i => exact .mk .nil (hread .nil)
  | flat i form bytes => exact .mk .nil (hread .nil)
  | nested i kind t es ih =>
    have hcs : List.Forall₂ Reader.Alike (es.map Γ.reader) (es.map Γ'.reader) := by
      rw [List.forall₂_map_left_iff, List.forall₂_map_right_iff, List.forall₂_same]
      exact ih
    simp only [Scope.reader, readers_eq]
    exact .mk hcs (hread hcs)

theorem unpack (h : Γ.Within Γ') (e : Element) (d : Ty) :
    Lasts Eq (Γ.unpack e d) (Γ'.unpack e d) :=
  (h.reader e).read d

end Scope.Within

namespace Scope

/-- Whatever is registered later, a codec that knew every type it met answers as it did, and fails
as it failed. -/
theorem known_lasts (Γ : Scope) (ss : List Service) :
    (∀ i v d, (Γ.pack i v d).Known → (Γ.later ss).pack i v d = Γ.pack i v d) ∧
      (∀ e d, (Γ.unpack e d).Known → (Γ.later ss).unpack e d = Γ.unpack e d) ∧
      (∀ i v, (Γ.packAny i v).Known → (Γ.later ss).packAny i v = Γ.packAny i v) ∧
      ∀ e, (Γ.unpackAny e).Known → (Γ.later ss).unpackAny e = Γ.unpackAny e := by
  have h := Γ.within_later ss
  exact ⟨fun i v d => (h.encode v i d).eq_of_known, fun e d => (h.unpack e d).eq_of_known,
    fun i v => (h.encode v i .any).eq_of_known, fun e => (h.unpack e .any).eq_of_known⟩

theorem known_lasts_drive : ∃ e,
    let Γ := Scope.ofRegistry ⟨[Geo.service]⟩
    let later := Γ.later [Geo.service, ⟨"sea", [], [], []⟩]
    Γ.pack (.name "run") Geo.drive (.struct "geo.Track") = .ok e ∧
      later.pack (.name "run") Geo.drive (.struct "geo.Track") = .ok e :=
  ⟨_, rfl, (known_lasts (.ofRegistry ⟨[Geo.service]⟩) _).1 (.name "run") Geo.drive
    (.struct "geo.Track") nofun⟩

-- What was not known may be known later.
example : ∃ e,
    let Γ := Scope.ofRegistry .empty
    Γ.packAny (.name "run") Geo.drive = .error (.serviceTypeNotFound "geo.Track") ∧
      (Γ.later [Geo.service]).packAny (.name "run") Geo.drive = .ok e := ⟨_, rfl, rfl⟩

end Scope

end TypedWire
