import TypedWire.Proofs.OpenUnpacking
import Mathlib.Data.List.Perm.Basic
import Mathlib.Logic.Relation

/-!
Rearranging: what an element holds does not hang on how a sender lists it.

The children of a structure, of a map and of a block are found by their keys, so they may come in
any order, and a vector takes the decimal spelling of a position for the position. An element and
what such edits make of it agree on everything that a list asks of a child (`Look`, `Scope.Agree`);
so an edit at any depth is an edit of nothing that is read.
-/

namespace TypedWire

def ListKind.Unordered : ListKind → Prop
  | .struct | .block | .podBlock | .namedBlock | .vector | .dictionary => True
  | .podArray | .namedArray | .list => False

/-- One edit of what is in an element, at any depth. -/
inductive Element.Rearrangement : Element → Element → Prop
  | permute {i kind t es es'} : kind.Unordered → es.Perm es' →
      Rearrangement (.nested i kind t es) (.nested i kind t es')
  | respell {i t es c es' k s} : c.key = .index k → int32OfText? s = some k →
      Rearrangement (.nested i .vector t (es ++ c :: es'))
        (.nested i .vector t (es ++ c.withKey (.name s) :: es'))
  | inside {i kind t es c c' es'} : Rearrangement c c' →
      Rearrangement (.nested i kind t (es ++ c :: es')) (.nested i kind t (es ++ c' :: es'))

inductive Look : Type → Type
  | array (k : NumericKind) : Look Numbers
  | value (d : Ty) : Look Value
  | record (p : PodType) : Look (Record Value)
  | pods (p : PodType) : Look (List (Record Value))
  | named (a : NamedType) : Look (List NamedRecord)

namespace Scope

def look (Γ : Scope) (e : Element) : {α : Type} → Look α → Checked α
  | _, .array k => e.arrayOf k
  | _, .value d => Γ.unpack e d
  | _, .record p => do p.decodeOne (← (Γ.reader e).listOf .struct)
  | _, .pods p => do p.decodeArray (← (Γ.reader e).listOf .podArray)
  | _, .named a => do a.decodeArray (← e.listOf .namedArray)

structure Agree (Γ : Scope) (e e' : Element) : Prop where
  tag : e.tag = e'.tag
  look : ∀ {α : Type} (l : Look α) x, Γ.look e l = .ok x ↔ Γ.look e' l = .ok x

structure Matches (Γ : Scope) (kind : ListKind) (c c' : Element) : Prop where
  key : c.key = c'.key ∨ kind = .vector ∧ c.key.toInt32 = c'.key.toInt32
  agree : Γ.Agree c c'

def Shuffled (Γ : Scope) (kind : ListKind) (es es' : List Element) : Prop :=
  ∃ mid, (es = mid ∨ kind.Unordered ∧ es.Perm mid) ∧ List.Forall₂ (Γ.Matches kind) mid es'

variable {Γ : Scope}

namespace Agree

theorem refl (e : Element) : Γ.Agree e e := ⟨rfl, fun _ _ => Iff.rfl⟩

theorem symm {e e' : Element} (h : Γ.Agree e e') : Γ.Agree e' e :=
  ⟨h.tag.symm, fun l x => (h.look l x).symm⟩

theorem trans {e e' e'' : Element} (h : Γ.Agree e e') (h' : Γ.Agree e' e'') : Γ.Agree e e'' :=
  ⟨h.tag.trans h'.tag, fun l x => (h.look l x).trans (h'.look l x)⟩

theorem withKey (i : Key) (e : Element) : Γ.Agree e (e.withKey i) := by
  have hlook {α : Type} (l : Look α) : Γ.look e l = Γ.look (e.withKey i) l := by
    cases e with
    | void j => cases l <;> rfl
    | flat j form bytes => cases form <;> cases l <;> rfl
    | nested j kind t es => cases l <;> rfl
  exact ⟨by cases e <;> rfl, fun l x => by rw [hlook]⟩

end Agree

theorem Matches.refl (kind : ListKind) (c : Element) : Γ.Matches kind c c := ⟨.inl rfl, .refl c⟩

theorem Matches.symm {kind : ListKind} {c c' : Element} (h : Γ.Matches kind c c') :
    Γ.Matches kind c' c :=
  ⟨h.key.imp Eq.symm fun ⟨hk, hi⟩ => ⟨hk, hi.symm⟩, h.agree.symm⟩

theorem Matches.key_eq {kind : ListKind} {c c' : Element} (h : Γ.Matches kind c c')
    (hk : kind ≠ .vector) : c.key = c'.key :=
  h.key.resolve_right fun ⟨hv, _⟩ => hk hv

end Scope

def NamedChildren.Match {α β : Type} (R : α → β → Prop) (c : NamedChildren α)
    (c' : NamedChildren β) : Prop :=
  ∀ s, Option.Rel R (c.entries.lookup s) (c'.entries.lookup s)

namespace NamedChildren.Match

variable {α β : Type} {R : α → β → Prop} {c d : NamedChildren α} {c' : NamedChildren β}

theorem take (h : c.Match R c') {s : String} {x : α} (hx : c.take s = .ok (x, d)) :
    ∃ y d', c'.take s = .ok (y, d') ∧ R x y ∧ d.Match R d' := by
  have hs := h s
  rw [(take_eq_ok.mp hx).1] at hs
  cases hy : c'.entries.lookup s with
  | none => rw [hy] at hs; cases hs
  | some y =>
    rw [hy, Option.rel_some_some] at hs
    have hy : c'.take s = .ok (y, ⟨c'.entries.filter (·.1 ≠ s)⟩) := take_eq_ok.mpr ⟨hy, rfl⟩
    refine ⟨y, _, hy, hs, fun t => ?_⟩
    by_cases ht : t = s
    · rw [ht, lookup_take_self hx, lookup_take_self hy]
      exact .none
    · rw [lookup_take hx ht, lookup_take hy ht]
      exact h t

theorem expectNone (h : c.Match R c') (hc : c.expectNone = .ok ()) :
    c'.expectNone = .ok () := by
  rw [expectNone_eq_ok] at hc ⊢
  cases hc' : c'.entries with
  | nil => rfl
  | cons e rest =>
    have he := h e.1
    rw [hc, hc', List.lookup_cons_self] at he
    cases he

end NamedChildren.Match

theorem decodeFields_match {R : Reader → Reader → Prop}
    (hR : ∀ r r', R r r' → ∀ d v, r.read d = .ok v → r'.read d = .ok v) {table : List Field}
    {c c' rest : NamedChildren Reader} {fields : List (String × Value)} (hc : c.Match R c')
    (h : decodeFields table c = .ok (fields, rest)) :
    ∃ rest', decodeFields table c' = .ok (fields, rest') ∧ rest.Match R rest' := by
  induction table generalizing c c' fields with
  | nil =>
    cases h
    exact ⟨c', rfl, hc⟩
  | cons f table ih =>
    simp only [decodeFields, Checked.bind_eq_ok, Checked.pure_eq_ok, Prod.exists] at h
    obtain ⟨r, d, htake, v, hv, vs, _, hvs, heq⟩ := h
    cases heq
    obtain ⟨r', d', htake', hr, hd⟩ := hc.take htake
    obtain ⟨rest', hvs', hrest⟩ := ih hd hvs
    refine ⟨rest', ?_, hrest⟩
    simp only [decodeFields, Checked.bind_eq_ok, Checked.pure_eq_ok, Prod.exists]
    exact ⟨r', d', htake', v, hR r r' hr _ _ hv, vs, rest', hvs', rfl⟩

section Entries

variable {κ : Type} [DecidableEq κ] [LT κ] [DecidableLT κ]

theorem decodeEntries_eq_ok {key : Key → Checked κ} {text : κ → String} {value : Ty}
    {seen m : List (κ × Value)} {rs : List Reader} :
    decodeEntries key text value seen rs = .ok m ↔ ∃ es : List (κ × Value),
      List.Forall₂ (fun r e => key r.element.key = .ok e.1 ∧ r.read value = .ok e.2) rs es ∧
        (es.map (·.1)).Nodup ∧ (∀ e ∈ es, Entries.get? e.1 seen = none) ∧
        es.foldl (fun m e => Entries.put e.1 e.2 m) seen = m := by
  induction rs generalizing seen with
  | nil => simp [decodeEntries]
  | cons r rs ih =>
    simp only [decodeEntries, Checked.bind_eq_ok, Checked.refuse_eq_ok, ih,
      Option.not_isSome_iff_eq_none]
    constructor
    · rintro ⟨k, hk, hnew, v, hv, es, hall, hd, hseen, rfl⟩
      have hes : ∀ e ∈ es, e.1 ≠ k ∧ Entries.get? e.1 seen = none := by
        intro e he
        have := hseen e he
        rw [Entries.get?_put] at this
        split at this
        · cases this
        · exact ⟨‹_›, this⟩
      refine ⟨(k, v) :: es, .cons ⟨hk, hv⟩ hall, ?_, ?_, rfl⟩
      · rw [List.map_cons, List.nodup_cons]
        refine ⟨fun hmem => ?_, hd⟩
        obtain ⟨e, he, hek⟩ := List.mem_map.mp hmem
        exact (hes e he).1 hek
      · exact List.forall_mem_cons.mpr ⟨hnew, fun e he => (hes e he).2⟩
    · rintro ⟨_, hall, hd, hseen, rfl⟩
      cases hall with
      | @cons _ e _ es hre hall =>
        rw [List.map_cons, List.nodup_cons] at hd
        obtain ⟨hnew, hseen⟩ := List.forall_mem_cons.mp hseen
        refine ⟨e.1, hre.1, hnew, e.2, hre.2, es, hall, hd.2, fun d hmem => ?_, rfl⟩
        have hne : d.1 ≠ e.1 := fun hde => hd.1 (hde ▸ List.mem_map_of_mem hmem)
        rw [Entries.get?_put, if_neg hne, hseen d hmem]

theorem Entries.ofList_perm [LE κ] [Std.LawfulOrderLT κ] [Std.IsLinearOrder κ] {α : Type}
    {xs ys : List (κ × α)} (h : xs.Perm ys) (hd : (xs.map (·.1)).Nodup) :
    ofList xs = ofList ys := by
  have hd' : (ys.map (·.1)).Nodup := (h.map _).nodup_iff.mp hd
  apply (sorted_ofList xs).ext (sorted_ofList ys)
  intro k
  rw [get?_ofList fun e he => get?_of_mem hd' (h.mem_iff.mp he),
    get?_ofList fun e he => get?_of_mem hd' he]
  simp only [(h.map Prod.fst).mem_iff]

end Entries

namespace Scope.Shuffled

variable {Γ : Scope} {kind : ListKind} {es es' : List Element}

theorem symm (h : Γ.Shuffled kind es es') : Γ.Shuffled kind es' es := by
  obtain ⟨mid, hmid, hall⟩ := h
  have hall : List.Forall₂ (Γ.Matches kind) es' mid := hall.flip.imp fun _ _ h => h.symm
  rcases hmid with rfl | ⟨hk, hperm⟩
  · exact ⟨es', .inl rfl, hall⟩
  · have hcomp : Relation.Comp (List.Forall₂ (Γ.Matches kind)) List.Perm es' es :=
      ⟨mid, hall, hperm.symm⟩
    rw [List.forall₂_comp_perm_eq_perm_comp_forall₂] at hcomp
    obtain ⟨mid', hperm', hall'⟩ := hcomp
    exact ⟨mid', .inr ⟨hk, hperm'⟩, hall'⟩

theorem inOrder (h : Γ.Shuffled kind es es') (hk : ¬kind.Unordered) :
    List.Forall₂ (fun c c' => c.key = c'.key ∧ Γ.Agree c c') es es' := by
  have hv : kind ≠ .vector := by
    rintro rfl
    exact hk trivial
  obtain ⟨mid, hmid, hall⟩ := h
  obtain rfl : es = mid := hmid.resolve_right fun ⟨h, _⟩ => hk h
  exact hall.imp fun c c' hc => ⟨hc.key_eq hv, hc.agree⟩

theorem keys_eq (h : Γ.Shuffled kind es es') (hk : ¬kind.Unordered) :
    es.map (·.key) = es'.map (·.key) :=
  map_eq_map_iff_forall₂.mpr ((h.inOrder hk).imp fun _ _ h => h.1)

theorem ofList {α : Type} (h : Γ.Shuffled kind es es') (hk : kind ≠ .vector) (f : Element → α)
    {c : NamedChildren α} (hc : NamedChildren.ofList (es.map fun e => (e.key, f e)) = .ok c) :
    ∃ c', NamedChildren.ofList (es'.map fun e => (e.key, f e)) = .ok c' ∧
      c.Match (Relation.Map Γ.Agree f f) c' := by
  obtain ⟨hlisted, hd⟩ := NamedChildren.ofList_eq_ok.mp hc
  obtain ⟨mid, hmid, hall⟩ := h
  have hentries : List.Forall₂ (fun e x => e.key = .name x.1 ∧ f e = x.2) es c.entries := by
    rw [NamedChildren.listed, map_eq_map_iff_forall₂] at hlisted
    exact hlisted.imp fun e x hex => Prod.mk.inj hex
  -- The names first in the order of the sender, then with children that match those they name.
  obtain ⟨xs, hxs, hperm⟩ : ∃ xs, List.Forall₂ (fun e x => e.key = .name x.1 ∧ f e = x.2) mid xs ∧
      xs.Perm c.entries := by
    rcases hmid with rfl | ⟨-, hperm⟩
    · exact ⟨_, hentries, .refl _⟩
    · exact List.perm_comp_forall₂ hperm.symm hentries
  obtain ⟨ys, hys, hrel⟩ : ∃ ys, es'.map (fun e => (e.key, f e)) = NamedChildren.listed ys ∧
      List.Forall₂ (fun x y => x.1 = y.1 ∧ Relation.Map Γ.Agree f f x.2 y.2) xs ys := by
    clear hmid hperm hentries
    induction hall generalizing xs with
    | nil =>
      cases hxs
      exact ⟨[], rfl, .nil⟩
    | @cons e e' mid es' hee _ ih =>
      cases hxs with
      | @cons _ x _ xs hex hxs =>
        obtain ⟨ys, hys, hrel⟩ := ih xs hxs
        refine ⟨(x.1, f e') :: ys, ?_, .cons ⟨rfl, e, e', hee.agree, hex.2, rfl⟩ hrel⟩
        rw [List.map_cons, hys, ← hee.key_eq hk, hex.1]
        rfl
  have hd' : (xs.map (·.1)).Nodup := (hperm.map _).nodup_iff.mpr hd
  have hnames : xs.map (·.1) = ys.map (·.1) :=
    map_eq_map_iff_forall₂.mpr (hrel.imp fun _ _ h => h.1)
  refine ⟨⟨ys⟩, NamedChildren.ofList_eq_ok.mpr ⟨hys, hnames ▸ hd'⟩, fun s => ?_⟩
  rw [← NamedChildren.lookup_perm hperm hd']
  exact NamedChildren.rel_lookup hrel s

theorem record {what tn : String} {table : List Field} {t : Option String} {r : Record Value}
    (h : Γ.Shuffled .struct es es')
    (hr : decodeRecord what tn table ⟨.struct, t, es.map Γ.reader⟩ = .ok r) :
    decodeRecord what tn table ⟨.struct, t, es'.map Γ.reader⟩ = .ok r := by
  simp only [decodeRecord, Checked.bind_eq_ok, Checked.exists_unit, Checked.pure_eq_ok,
    Prod.exists, Container.expectKind_eq_ok, Container.expectType_eq_ok, List.map_map,
    Function.comp_def, element_reader] at hr ⊢
  obtain ⟨-, ht, c, hc, fields, rest, hfields, hnone, rfl⟩ := hr
  obtain ⟨c', hc', hmatch⟩ := h.ofList (by decide) Γ.reader hc
  have hread : ∀ r r', Relation.Map Γ.Agree Γ.reader Γ.reader r r' →
      ∀ d v, r.read d = .ok v → r'.read d = .ok v := by
    rintro _ _ ⟨e, e', he, rfl, rfl⟩ d v hv
    exact (he.look (.value d) v).mp hv
  obtain ⟨rest', hfields', hrest⟩ := decodeFields_match hread hmatch hfields
  exact ⟨trivial, ht, c', hc', fields, rest', hfields', hrest.expectNone hnone, rfl⟩

theorem entries {κ : Type} [DecidableEq κ] [LT κ] [DecidableLT κ] [LE κ] [Std.LawfulOrderLT κ]
    [Std.IsLinearOrder κ] {key : Key → Checked κ} {text : κ → String} {value : Ty}
    {m : List (κ × Value)} (h : Γ.Shuffled kind es es')
    (hkey : ∀ c c', Γ.Matches kind c c' → key c.key = key c'.key)
    (hm : decodeEntries key text value [] (es.map Γ.reader) = .ok m) :
    decodeEntries key text value [] (es'.map Γ.reader) = .ok m := by
  obtain ⟨xs, hxs, hd, -, rfl⟩ := decodeEntries_eq_ok.mp hm
  simp only [List.forall₂_map_left_iff, element_reader, read_reader] at hxs
  obtain ⟨mid, hmid, hall⟩ := h
  obtain ⟨ys, hys, hperm⟩ : ∃ ys : List (κ × Value), List.Forall₂ (fun c e =>
      key c.key = .ok e.1 ∧ Γ.unpack c value = .ok e.2) mid ys ∧ ys.Perm xs := by
    rcases hmid with rfl | ⟨-, hperm⟩
    · exact ⟨xs, hxs, .refl _⟩
    · exact List.perm_comp_forall₂ hperm.symm hxs
  have hd' : (ys.map (·.1)).Nodup := (hperm.map _).nodup_iff.mpr hd
  refine decodeEntries_eq_ok.mpr ⟨ys, ?_, hd', fun _ _ => rfl, Entries.ofList_perm hperm hd'⟩
  simp only [List.forall₂_map_left_iff, element_reader, read_reader]
  refine forall₂_meet hall hys fun c c' e hcc ⟨hk, hv⟩ => ⟨hkey c c' hcc ▸ hk, ?_⟩
  exact (hcc.agree.look (.value value) e.2).mp hv

theorem podArray {p : PodType} {t : Option String} {rs : List (Record Value)}
    (h : Γ.Shuffled .podArray es es')
    (hrs : p.decodeArray ⟨.podArray, t, es.map Γ.reader⟩ = .ok rs) :
    p.decodeArray ⟨.podArray, t, es'.map Γ.reader⟩ = .ok rs := by
  have hall := h.inOrder id
  simp only [PodType.decodeArray, Checked.bind_eq_ok, Checked.exists_unit,
    Container.expectKind_eq_ok, Container.expectType_eq_ok, List.map_map, List.mapM_map,
    Function.comp_def, element_reader, Checked.mapM_eq_ok, h.keys_eq id] at hrs ⊢
  obtain ⟨-, ht, hpos, hrs⟩ := hrs
  refine ⟨trivial, ht, hpos, forall₂_meet hall hrs fun c c' r hcc hr => ?_⟩
  exact Checked.bind_eq_ok.mp ((hcc.2.look (.record p) r).mp (Checked.bind_eq_ok.mpr hr))

theorem unwrapBlock {α : Type} {view : α → Element} {f : Element → α}
    (h : Γ.Shuffled kind es es') (hk : kind ≠ .vector) (hview : ∀ e, view (f e) = e)
    {dims : List UInt32} {x : α} (hx : TypedWire.unwrapBlock view (es.map f) = .ok (dims, x)) :
    ∃ c c', x = f c ∧ Γ.Agree c c' ∧
      TypedWire.unwrapBlock view (es'.map f) = .ok (dims, f c') := by
  simp only [TypedWire.unwrapBlock, Checked.bind_eq_ok, Prod.exists, List.map_map,
    Function.comp_def, hview, Checked.pure_eq_ok, Checked.exists_unit, Prod.mk.injEq] at hx ⊢
  obtain ⟨c, hc, y, c₁, hy, a, ha, items, hitems, z, c₂, hz, hnone, rfl, rfl⟩ := hx
  obtain ⟨c', hc', hmatch⟩ := h.ofList hk f hc
  obtain ⟨_, c₁', hy', ⟨d, d', hd, rfl, rfl⟩, hmatch⟩ := hmatch.take hy
  obtain ⟨_, c₂', hz', ⟨b, b', hb, rfl, rfl⟩, hmatch⟩ := hmatch.take hz
  rw [hview] at ha
  refine ⟨b, b', rfl, hb, c', hc', f d', c₁', hy', a, ?_, items, hitems, f b', c₂', hz',
    hmatch.expectNone hnone, rfl, rfl⟩
  rw [hview]
  exact (hd.look (.array .uint32) a).mp ha

theorem unwrapElements (h : Γ.Shuffled kind es es') (hk : kind ≠ .vector) {dims : List UInt32}
    {c : Element} (hc : TypedWire.unwrapBlock (fun e => e) es = .ok (dims, c)) :
    ∃ c', Γ.Agree c c' ∧ TypedWire.unwrapBlock (fun e => e) es' = .ok (dims, c') := by
  rw [← List.map_id es] at hc
  obtain ⟨_, c', rfl, hcc, hc'⟩ := h.unwrapBlock hk (fun _ => rfl) hc
  exact ⟨c', hcc, by rwa [List.map_id] at hc'⟩

theorem namedArray {a : NamedType} {t : Option String} {rs : List NamedRecord}
    (h : Γ.Shuffled .namedArray es es') (hrs : a.decodeArray ⟨.namedArray, t, es⟩ = .ok rs) :
    a.decodeArray ⟨.namedArray, t, es'⟩ = .ok rs := by
  simp only [NamedType.decodeArray, Checked.bind_eq_ok, Checked.exists_unit, Prod.exists,
    Container.expectKind_eq_ok, Container.expectType_eq_ok, Checked.pure_eq_ok] at hrs ⊢
  obtain ⟨-, ht, c, hc, x, c₁, hx, flat, hflat, hnone, parts, hparts, rfl⟩ := hrs
  obtain ⟨c', hc', hmatch⟩ := h.ofList (by decide) (fun e => e) hc
  obtain ⟨_, c₁', hx', ⟨b, b', hb, rfl, rfl⟩, hmatch⟩ := hmatch.take hx
  exact ⟨trivial, ht, c', hc', b', c₁', hx', flat, (hb.look (.array a.kind) flat).mp hflat,
    hmatch.expectNone hnone, parts, hparts, rfl⟩

end Scope.Shuffled

namespace Element

variable {i : Key} {kind k : ListKind} {t : Option String} {es : List Element}

@[simp] theorem listOf_nested {l : Container Element} :
    (nested i kind t es).listOf k = .ok l ↔ kind = k ∧ ⟨kind, t, es⟩ = l := by
  simp [listOf]

@[simp] theorem listWith_nested {rs : List Reader} {l : Container Reader} :
    (nested i kind t es).listWith k rs = .ok l ↔ kind = k ∧ ⟨kind, t, rs⟩ = l := by
  simp only [listWith, Checked.bind_eq_ok, listOf_nested, Checked.pure_eq_ok]
  constructor
  · rintro ⟨_, ⟨hk, rfl⟩, hl⟩
    exact ⟨hk, hl⟩
  · rintro ⟨hk, hl⟩
    exact ⟨_, ⟨hk, rfl⟩, hl⟩

end Element

@[simp] theorem Scope.listOf_reader_nested {Γ : Scope} {i : Key} {kind k : ListKind}
    {t : Option String} {es : List Element} {l : Container Reader} :
    (Γ.reader (.nested i kind t es)).listOf k = .ok l ↔
      kind = k ∧ ⟨kind, t, es.map Γ.reader⟩ = l := by
  rw [Reader.listOf, element_reader, children_reader, Element.listWith_nested]
  rfl

namespace Scope

variable {Γ : Scope} {i : Key} {kind : ListKind} {t : Option String} {es es' : List Element}

theorem Shuffled.decodePods {tn : String} {shape : Shape} {v : Value}
    (h : Γ.Shuffled kind es es')
    (hv : Γ.decodePods tn shape (.nested i kind t es) (es.map Γ.reader) = .ok v) :
    Γ.decodePods tn shape (.nested i kind t es') (es'.map Γ.reader) = .ok v := by
  simp only [Scope.decodePods, Checked.bind_eq_ok] at hv ⊢
  obtain ⟨p, hp, hv⟩ := hv
  refine ⟨p, hp, ?_⟩
  cases shape with
  | single =>
    simp only [Checked.bind_eq_ok, Checked.pure_eq_ok, Element.listWith_nested] at hv ⊢
    obtain ⟨_, ⟨rfl, rfl⟩, rs, hrs, r, hr, rfl⟩ := hv
    exact ⟨_, ⟨rfl, rfl⟩, rs, h.podArray hrs, r, hr, rfl⟩
  | array len =>
    simp only [Checked.bind_eq_ok, Checked.exists_unit, Checked.pure_eq_ok,
      Element.listWith_nested] at hv ⊢
    obtain ⟨_, ⟨rfl, rfl⟩, rs, hrs, hlen, rfl⟩ := hv
    exact ⟨_, ⟨rfl, rfl⟩, rs, h.podArray hrs, hlen, rfl⟩
  | block dims =>
    simp only [Checked.bind_eq_ok, Checked.exists_unit, Checked.pure_eq_ok,
      Element.listWith_nested, PodType.decodeBlock, Prod.exists, Container.expectKind_eq_ok,
      Container.expectType_eq_ok] at hv ⊢
    obtain ⟨_, ⟨rfl, rfl⟩, b, ⟨-, ht, ds, x, hx, l, hl, rs, hrs, hb⟩, hdims, rfl⟩ := hv
    obtain ⟨c, c', rfl, hcc, hx'⟩ := h.unwrapBlock (by decide) Γ.element_reader hx
    have hlook : Γ.look c (.pods p) = .ok rs := Checked.bind_eq_ok.mpr ⟨l, hl, hrs⟩
    obtain ⟨l', hl', hrs'⟩ := Checked.bind_eq_ok.mp ((hcc.look (.pods p) rs).mp hlook)
    exact ⟨_, ⟨rfl, rfl⟩, b, ⟨rfl, ht, ds, _, hx', l', hl', rs, hrs', hb⟩, hdims, rfl⟩

theorem Shuffled.decodeNamed {tn : String} {shape : Shape} {v : Value}
    (h : Γ.Shuffled kind es es') (hv : Γ.decodeNamed tn shape (.nested i kind t es) = .ok v) :
    Γ.decodeNamed tn shape (.nested i kind t es') = .ok v := by
  simp only [Scope.decodeNamed, Checked.bind_eq_ok] at hv ⊢
  obtain ⟨a, ha, hv⟩ := hv
  refine ⟨a, ha, ?_⟩
  cases shape with
  | single =>
    simp only [Checked.bind_eq_ok, Checked.pure_eq_ok, Element.listOf_nested] at hv ⊢
    obtain ⟨_, ⟨rfl, rfl⟩, rs, hrs, r, hr, rfl⟩ := hv
    exact ⟨_, ⟨rfl, rfl⟩, rs, h.namedArray hrs, r, hr, rfl⟩
  | array len =>
    simp only [Checked.bind_eq_ok, Checked.exists_unit, Checked.pure_eq_ok,
      Element.listOf_nested] at hv ⊢
    obtain ⟨_, ⟨rfl, rfl⟩, rs, hrs, hlen, rfl⟩ := hv
    exact ⟨_, ⟨rfl, rfl⟩, rs, h.namedArray hrs, hlen, rfl⟩
  | block dims =>
    simp only [Checked.bind_eq_ok, Checked.exists_unit, Checked.pure_eq_ok,
      Element.listOf_nested, NamedType.decodeBlock, Prod.exists, Container.expectKind_eq_ok,
      Container.expectType_eq_ok] at hv ⊢
    obtain ⟨_, ⟨rfl, rfl⟩, b, ⟨-, ht, ds, x, hx, l, hl, rs, hrs, hb⟩, hdims, rfl⟩ := hv
    obtain ⟨c', hcc, hx'⟩ := h.unwrapElements (by decide) hx
    have hlook : Γ.look x (.named a) = .ok rs := Checked.bind_eq_ok.mpr ⟨l, hl, hrs⟩
    obtain ⟨l', hl', hrs'⟩ := Checked.bind_eq_ok.mp ((hcc.look (.named a) rs).mp hlook)
    exact ⟨_, ⟨rfl, rfl⟩, b, ⟨rfl, ht, ds, _, hx', l', hl', rs, hrs', hb⟩, hdims, rfl⟩

theorem Shuffled.decodeAs {d : Ty} {v : Value} (h : Γ.Shuffled kind es es')
    (hv : Γ.decodeAs (.nested i kind t es) (es.map Γ.reader) d = .ok v) :
    Γ.decodeAs (.nested i kind t es') (es'.map Γ.reader) d = .ok v := by
  cases d with
  | block k expected =>
    simp only [Scope.decodeAs, Checked.bind_eq_ok, Checked.exists_unit, Checked.pure_eq_ok,
      Prod.exists, Element.listOf_nested] at hv ⊢
    obtain ⟨_, ⟨rfl, rfl⟩, dims, x, hx, hdims, a, ha, items, hitems, b, hb, rfl⟩ := hv
    obtain ⟨c', hcc, hx'⟩ := h.unwrapElements (by decide) hx
    exact ⟨_, ⟨rfl, rfl⟩, dims, c', hx', hdims, a, (hcc.look (.array k) a).mp ha, items, hitems, b,
      hb, rfl⟩
  | map key value =>
    simp only [Scope.decodeAs, Checked.bind_eq_ok] at hv ⊢
    obtain ⟨kk, hkey, hv⟩ := hv
    refine ⟨kk, hkey, ?_⟩
    cases kk with
    | int32 =>
      simp only [Checked.bind_eq_ok, Checked.pure_eq_ok, Element.listWith_nested] at hv ⊢
      obtain ⟨_, ⟨rfl, rfl⟩, m, hm, rfl⟩ := hv
      refine ⟨_, ⟨rfl, rfl⟩, m, h.entries (fun c c' hcc => ?_) hm, rfl⟩
      rcases hcc.key with hkey | ⟨-, hkey⟩
      · rw [hkey]
      · exact hkey
    | text =>
      simp only [Checked.bind_eq_ok, Checked.pure_eq_ok, Element.listWith_nested] at hv ⊢
      obtain ⟨_, ⟨rfl, rfl⟩, m, hm, rfl⟩ := hv
      refine ⟨_, ⟨rfl, rfl⟩, m, h.entries (fun c c' hcc => ?_) hm, rfl⟩
      rw [hcc.key_eq (by decide)]
  | list item =>
    simp only [Scope.decodeAs, Checked.bind_eq_ok, Checked.exists_unit, Checked.pure_eq_ok,
      Element.listWith_nested] at hv ⊢
    obtain ⟨_, ⟨rfl, rfl⟩, hpos, vs, hvs, rfl⟩ := hv
    have hall := h.inOrder id
    refine ⟨_, ⟨rfl, rfl⟩, ?_, vs, ?_, rfl⟩
    · simpa only [List.map_map, Function.comp_def, element_reader, h.keys_eq id] using hpos
    · simp only [List.mapM_map, Function.comp_def, read_reader, Checked.mapM_eq_ok] at hvs ⊢
      exact forall₂_meet hall hvs fun c c' v hcc hv => (hcc.2.look (.value item) v).mp hv
  | struct tn =>
    simp only [Scope.decodeAs, Checked.bind_eq_ok, Checked.exists_unit, Checked.pure_eq_ok,
      Container.expectType_eq_ok, Element.listWith_nested] at hv ⊢
    obtain ⟨_, ⟨rfl, rfl⟩, ht, s, hs, r, hr, rfl⟩ := hv
    exact ⟨_, ⟨rfl, rfl⟩, ht, s, hs, r, h.record hr, rfl⟩
  | pod tn shape => exact h.decodePods hv
  | named tn shape => exact h.decodeNamed hv
  | _ => exact hv

theorem Shuffled.ty_eq {d : Ty} {v : Value} (h : Γ.Shuffled kind es es')
    (hd : (Element.nested i kind t es).ty = .ok d)
    (hv : Γ.decodeAs (.nested i kind t es) (es.map Γ.reader) d = .ok v) :
    (Element.nested i kind t es').ty = .ok d := by
  cases kind with
  | block =>
    -- The kind of the items is that of the first child called so, whatever stands before it.
    obtain ⟨k, rfl⟩ : ∃ k, d = .block k none := by
      simp only [Element.ty] at hd
      split at hd
      · split at hd
        · cases hd
          exact ⟨_, rfl⟩
        · cases hd
      · cases hd
    exact ty_of_decodeAs_block (h.decodeAs hv)
  | _ => exact hd

theorem Shuffled.look {α : Type} (h : Γ.Shuffled kind es es') (l : Look α) (x : α)
    (hx : Γ.look (.nested i kind t es) l = .ok x) : Γ.look (.nested i kind t es') l = .ok x := by
  cases l with
  | array k => exact hx
  | value d =>
    obtain ⟨d', hd', hv⟩ := (unpack_eq_ok (by simp)).mp hx
    refine (unpack_eq_ok (by simp)).mpr ⟨d', ?_, h.decodeAs hv⟩
    by_cases hd : d = .any
    · subst hd
      exact h.ty_eq hd' hv
    · rw [Ty.orTag_of_ne hd] at hd' ⊢
      exact hd'
  | record p =>
    simp only [Scope.look, Checked.bind_eq_ok, listOf_reader_nested] at hx ⊢
    obtain ⟨_, ⟨rfl, rfl⟩, hr⟩ := hx
    exact ⟨_, ⟨rfl, rfl⟩, h.record hr⟩
  | pods p =>
    simp only [Scope.look, Checked.bind_eq_ok, listOf_reader_nested] at hx ⊢
    obtain ⟨_, ⟨rfl, rfl⟩, hrs⟩ := hx
    exact ⟨_, ⟨rfl, rfl⟩, h.podArray hrs⟩
  | named a =>
    simp only [Scope.look, Checked.bind_eq_ok, Element.listOf_nested] at hx ⊢
    obtain ⟨_, ⟨rfl, rfl⟩, hrs⟩ := hx
    exact ⟨_, ⟨rfl, rfl⟩, h.namedArray hrs⟩

theorem Shuffled.agree (h : Γ.Shuffled kind es es') :
    Γ.Agree (.nested i kind t es) (.nested i kind t es') :=
  ⟨rfl, fun l x => ⟨h.look l x, h.symm.look l x⟩⟩

theorem Shuffled.of_matches {c c' : Element} (h : Γ.Matches kind c c') :
    Γ.Shuffled kind (es ++ c :: es') (es ++ c' :: es') := by
  have hrefl (es : List Element) : List.Forall₂ (Γ.Matches kind) es es :=
    List.forall₂_same.mpr fun c _ => .refl kind c
  exact ⟨_, .inl rfl, List.rel_append (hrefl es) (.cons h (hrefl es'))⟩

theorem agree_of_rearrangement {e e' : Element} (h : e.Rearrangement e') : Γ.Agree e e' := by
  induction h with
  | permute hk hperm =>
    exact Shuffled.agree ⟨_, .inr ⟨hk, hperm⟩, List.forall₂_same.mpr fun c _ => .refl _ c⟩
  | respell hc hs =>
    refine (Shuffled.of_matches ⟨.inr ⟨rfl, ?_⟩, .withKey _ _⟩).agree
    simp only [hc, Element.key_withKey, Key.toInt32, hs]
  | @inside i kind t es c c' es' hcc ih =>
    have hkey : c.key = c'.key := by cases hcc <;> rfl
    exact (Shuffled.of_matches ⟨.inl hkey, ih⟩).agree

/-- However its lists are rearranged and its positions spelled, an element holds the same value
under every type, and holds one exactly when it did before. -/
theorem unpack_rearranged {e e' : Element} (h : Relation.ReflTransGen Element.Rearrangement e e')
    (d : Ty) (v : Value) : Γ.unpack e d = .ok v ↔ Γ.unpack e' d = .ok v := by
  have hagree : Γ.Agree e e' := by
    induction h with
    | refl => exact .refl e
    | tail _ hstep ih => exact ih.trans (agree_of_rearrangement hstep)
  exact hagree.look (.value d) v

theorem unpack_rearranged_levels :
    let e := Element.nested (.name "levels") .vector none
      [.ofText (.index 1) "low", .ofText (.index 2) "high"]
    let e' := Element.nested (.name "levels") .vector none
      [.ofText (.name "+2") "high", .ofText (.index 1) "low"]
    let v := Value.vector [(1, .text "low"), (2, .text "high")]
    Geo.scope.unpack e (.map (.scalar .int32) .text) = .ok v ∧
      Geo.scope.unpack e' (.map (.scalar .int32) .text) = .ok v := by
  intro e e' v
  have hswap : e.Rearrangement (.nested (.name "levels") .vector none
      [.ofText (.index 2) "high", .ofText (.index 1) "low"]) := .permute trivial (.swap ..)
  have hspell : Element.Rearrangement (.nested (.name "levels") .vector none
      [.ofText (.index 2) "high", .ofText (.index 1) "low"]) e' :=
    @Element.Rearrangement.respell _ _ [] _ _ 2 _ rfl (by decide)
  exact ⟨rfl, (unpack_rearranged (.tail (.single hswap) hspell) _ v).mp rfl⟩

end Scope

end TypedWire
