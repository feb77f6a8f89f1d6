import TypedWire.Proofs.Decimals
import TypedWire.Proofs.Rearranging

namespace TypedWire

namespace Key

/-- What a key stands for in a vector: a position for itself, a name for the number it spells. -/
inductive Denotes : Key → Int32 → Prop
  | index (k) : Denotes (.index k) k
  | name {s k} : Spells s.toList k.toInt → Denotes (.name s) k

theorem toInt32_eq_ok {i : Key} {k : Int32} : i.toInt32 = .ok k ↔ i.Denotes k := by
  cases i with
  | index j =>
    rw [toInt32, Except.ok.injEq]
    constructor
    · rintro rfl
      exact .index j
    · rintro ⟨⟩
      rfl
  | name s =>
    have hread : (name s).toInt32 = .ok k ↔ int32OfText? s = some k := by
      cases h : int32OfText? s <;> simp [toInt32, h]
    rw [hread, int32OfText?_eq_some]
    constructor
    · exact .name
    · rintro ⟨⟩
      assumption

example : ∀ i ∈ [Key.index 7, .name "7", .name "+7", .name "007"], i.Denotes 7 := by
  simp only [← toInt32_eq_ok]
  decide

theorem toName_eq_ok {i : Key} {s : String} : i.toName = .ok s ↔ i = .name s := by
  cases i <;> simp [toName]

end Key

namespace Scope

section Entries

variable {κ : Type} (Γ : Scope) (stands : Key → κ → Prop) (value : Ty) (items : List Element)

structure Mappable : Prop where
  usable : ∀ e ∈ items, ∃ k, stands e.key k
  apart : items.Pairwise fun e e' => ∀ k, stands e.key k → ¬stands e'.key k
  decodes : ∀ e ∈ items, ∃ v, Γ.unpack e value = .ok v

structure Maps [LT κ] (m : List (κ × Value)) : Prop where
  sorted : Entries.Sorted m
  entries : ∃ es, es.Perm m ∧
    List.Forall₂ (fun e c => stands e.key c.1 ∧ Γ.unpack e value = .ok c.2) items es

structure KeepsEntries [LT κ] (toValue : List (κ × Value) → Value) (out : Checked Value) :
    Prop where
  succeeds : (∃ v, out = .ok v) ↔ Γ.Mappable stands value items
  entries : ∀ v, out = .ok v → ∃ m, v = toValue m ∧ Γ.Maps stands value items m
  clash : ∀ es c es' c' es'' k, items = es ++ c :: es' ++ c' :: es'' → stands c.key k →
    stands c'.key k → ∀ v, out ≠ .ok v

end Entries

variable {Γ : Scope} {value : Ty} {items : List Element}

section Decoding

variable {κ : Type} [DecidableEq κ] [LT κ] [DecidableLT κ] {key : Key → Checked κ}
  {stands : Key → κ → Prop} (text : κ → String)

theorem exists_decodeEntries (hkey : ∀ i k, key i = .ok k ↔ stands i k) :
    (∃ m, decodeEntries key text value [] (items.map Γ.reader) = .ok m) ↔
      Γ.Mappable stands value items := by
  have hone {i : Key} {k k' : κ} (h : stands i k) (h' : stands i k') : k = k' :=
    Except.ok.inj (((hkey i k).mpr h).symm.trans ((hkey i k').mpr h'))
  simp only [decodeEntries_eq_ok, List.forall₂_map_left_iff, element_reader, read_reader, hkey]
  constructor
  · rintro ⟨_, es, hall, hd, -⟩
    refine ⟨fun e he => ?_, ?_, fun e he => ?_⟩
    · obtain ⟨c, -, hc, -⟩ := exists_of_forall₂ hall e he
      exact ⟨c.1, hc⟩
    · refine pairwise_of_forall₂ (fun e e' c c' hc hc' hne k hk hk' => hne ?_) hall
        (List.pairwise_map.mp hd)
      rw [hone hc.1 hk, hone hc'.1 hk']
    · obtain ⟨c, -, -, hc⟩ := exists_of_forall₂ hall e he
      exact ⟨c.2, hc⟩
  · rintro ⟨husable, hapart, hdecodes⟩
    have hentry : ∀ e ∈ items, ∃ c : κ × Value,
        stands e.key c.1 ∧ Γ.unpack e value = .ok c.2 := by
      intro e he
      obtain ⟨k, hk⟩ := husable e he
      obtain ⟨v, hv⟩ := hdecodes e he
      exact ⟨(k, v), hk, hv⟩
    obtain ⟨es, hall⟩ := exists_forall₂ hentry
    refine ⟨_, es, hall, List.pairwise_map.mpr ?_, fun _ _ => rfl, rfl⟩
    refine pairwise_of_forall₂ (fun c c' e e' hc hc' hne heq => ?_) hall.flip hapart
    exact hne c.1 hc.1 (heq ▸ hc'.1)

theorem maps_of_decodeEntries [LE κ] [Std.LawfulOrderLT κ] [Std.IsLinearOrder κ]
    (hkey : ∀ i k, key i = .ok k ↔ stands i k) {m : List (κ × Value)}
    (h : decodeEntries key text value [] (items.map Γ.reader) = .ok m) :
    Γ.Maps stands value items m := by
  obtain ⟨es, hall, hd, -, rfl⟩ := decodeEntries_eq_ok.mp h
  simp only [List.forall₂_map_left_iff, element_reader, read_reader, hkey] at hall
  exact ⟨Entries.sorted_ofList es, es, (Entries.perm_ofList hd).symm, hall⟩

theorem keepsEntries [LE κ] [Std.LawfulOrderLT κ] [Std.IsLinearOrder κ]
    (hkey : ∀ i k, key i = .ok k ↔ stands i k) {toValue : List (κ × Value) → Value}
    {out : Checked Value} (hout : ∀ v, out = .ok v ↔ ∃ m,
      decodeEntries key text value [] (items.map Γ.reader) = .ok m ∧ toValue m = v) :
    Γ.KeepsEntries stands value items toValue out := by
  have hsucceeds : (∃ v, out = .ok v) ↔ Γ.Mappable stands value items := by
    rw [← exists_decodeEntries text hkey]
    simp only [hout]
    exact ⟨fun ⟨_, m, hm, _⟩ => ⟨m, hm⟩, fun ⟨m, hm⟩ => ⟨_, m, hm, rfl⟩⟩
  refine ⟨hsucceeds, fun v hv => ?_, ?_⟩
  · obtain ⟨m, hm, rfl⟩ := (hout v).mp hv
    exact ⟨m, rfl, maps_of_decodeEntries text hkey hm⟩
  · rintro es c es' c' es'' k rfl hc hc' v hv
    have hapart := (hsucceeds.mp ⟨v, hv⟩).apart
    exact (List.pairwise_append.mp hapart).2.2 c (by simp) c' List.mem_cons_self k hc hc'

end Decoding

/-- A vector and a dictionary, under a type of maps or an open type, hold exactly the entries that
their children are, or nothing. -/
theorem map_keeps_entries (Γ : Scope) (d key value : Ty) (i : Key) (t : Option String)
    (items : List Element) :
    (d.orTag (.nested i .vector t items) = .ok (.map key value) → key.keyKind = .ok .int32 →
      Γ.KeepsEntries Key.Denotes value items .vector (Γ.unpack (.nested i .vector t items) d)) ∧
    (d.orTag (.nested i .dictionary t items) = .ok (.map key value) → key.keyKind = .ok .text →
      Γ.KeepsEntries (fun i s => i = .name s) value items .dictionary
        (Γ.unpack (.nested i .dictionary t items) d)) := by
  constructor
  · intro hd hk
    refine keepsEntries (fun k => toString k.toInt) (fun _ _ => Key.toInt32_eq_ok) ?_
    intro v
    rw [unpack_eq_ok (by simp [Element.tag])]
    simp [hd, decodeAs, hk, Element.children]
  · intro hd hk
    refine keepsEntries (fun s => s) (fun _ _ => Key.toName_eq_ok) ?_
    intro v
    rw [unpack_eq_ok (by simp [Element.tag])]
    simp [hd, decodeAs, hk, Element.children]

theorem map_keeps_entries_levels :
    let d := Ty.map (.scalar .int32) .text
    let levels s := [Element.ofText (.index 7) "low", .ofText (.name s) "high"]
    let vector s := Element.nested (.name "levels") .vector none (levels s)
    let notes := [Element.ofText (.name "stop") "wet", .ofText (.name "start") "dry"]
    let dictionary := Element.nested (.name "notes") .dictionary none notes
    Geo.scope.KeepsEntries Key.Denotes .text (levels "+007") .vector
        (Geo.scope.unpack (vector "+007") d) ∧
      Geo.scope.unpack (vector "+007") d = .error (.duplicateKey "7") ∧
      Geo.scope.unpack (vector "-007") d = .ok (.vector [(-7, .text "high"), (7, .text "low")]) ∧
      Geo.scope.KeepsEntries (fun i s => i = .name s) .any notes .dictionary
        (Geo.scope.unpackAny dictionary) :=
  ⟨(map_keeps_entries Geo.scope _ (.scalar .int32) .text _ none _).1 rfl rfl, rfl, rfl,
    (map_keeps_entries Geo.scope .any .text .any _ none _).2 rfl rfl⟩

end Scope

end TypedWire
