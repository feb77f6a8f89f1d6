import TypedWire.HostType
import TypedWire.Proofs.Built

/-!
Telling errors: a mismatch names two things, and they differ.

`WireError.Telling` says so of an error, `Checked.Telling` of every error that a step can end in. A
chain of steps is telling if each of them is, so `simp` takes a `do` block apart and the lemma of
each function closes its part. Here are the functions on the wire tree, numbers, axes and
definitions.
-/

namespace TypedWire

/-- A mismatch names two different things; other errors name none to compare. -/
@[simp] def WireError.Telling : WireError → Prop
  | .dimensionMismatch expected found => expected ≠ found
  | .lengthMismatch expected found => expected ≠ found
  | _ => True

namespace Checked

universe u

variable {α β : Type u} {x y : Checked α}

def Telling (x : Checked α) : Prop := ∀ e, x = .error e → e.Telling

@[simp] theorem telling_ok (a : α) : Telling (.ok a) := nofun

@[simp] theorem telling_pure (a : α) : Telling (pure a) := nofun

@[simp] theorem telling_error_iff {e : WireError} : Telling (.error e : Checked α) ↔ e.Telling :=
  ⟨fun h => h e rfl, fun h _ he => Except.error.inj he ▸ h⟩

@[simp] theorem telling_bind_iff {f : α → Checked β} :
    (x >>= f).Telling ↔ x.Telling ∧ ∀ a, x = .ok a → (f a).Telling := by
  cases x <;> simp [bind, Except.bind]

@[simp] theorem telling_map_iff {f : α → β} : (f <$> x).Telling ↔ x.Telling := by
  cases x <;> simp

@[simp] theorem telling_ite_iff {p : Prop} [Decidable p] :
    (if p then x else y).Telling ↔ (p → x.Telling) ∧ (¬p → y.Telling) := by
  by_cases h : p <;> simp [h]

@[simp] theorem telling_dite_iff {p : Prop} [Decidable p] {f : p → Checked α}
    {g : ¬p → Checked α} :
    (if h : p then f h else g h).Telling ↔ (∀ h, (f h).Telling) ∧ ∀ h, (g h).Telling := by
  by_cases h : p <;> simp [h]

@[simp] theorem telling_word (n : Nat) : (word n).Telling := by
  simp [word]

theorem telling_mapM {f : α → Checked β} {xs : List α} (h : ∀ x ∈ xs, (f x).Telling) :
    (xs.mapM f).Telling := by
  induction xs with
  | nil => simp
  | cons x xs ih =>
    obtain ⟨hx, hxs⟩ := List.forall_mem_cons.mp h
    simp [List.mapM_cons, hx, ih hxs]

theorem telling_forM {f : α → Checked PUnit} {xs : List α} (h : ∀ x ∈ xs, (f x).Telling) :
    (forM xs f).Telling := by
  induction xs with
  | nil => simp
  | cons x xs ih =>
    obtain ⟨hx, hxs⟩ := List.forall_mem_cons.mp h
    simp [hx, ih hxs]

end Checked

open Checked

theorem one_ne_length {α : Type _} {xs : List α} (h : ∀ x, xs ≠ [x]) : 1 ≠ xs.length := by
  intro hlen
  obtain ⟨x, hx⟩ := List.length_eq_one_iff.mp hlen.symm
  exact h x hx

section Numeric

variable {k : NumericKind}

@[simp] theorem Item.telling_ofBytes (bs : List UInt8) : (Item.ofBytes k bs).Telling := by
  simp [Item.ofBytes]

namespace Numbers

@[simp] theorem telling_ofBytes (bs : List UInt8) : (ofBytes k bs).Telling := by
  simp [ofBytes, telling_mapM]

@[simp] theorem telling_itemsOf (a : Numbers) : (itemsOf k a).Telling := by
  simp [itemsOf]

@[simp] theorem telling_slice (a : Numbers) (start n : Nat) : (a.slice start n).Telling := by
  simp [slice]

@[simp] theorem telling_concat (parts : List Numbers) : (concat k parts).Telling := by
  simp [concat, telling_mapM]

theorem telling_split_iff (a : Numbers) (width : Nat) :
    (a.split width).Telling ↔ ¬(width = 0 ∧ a.length = 0) := by
  have hmod : width ≠ 0 → a.length % width ≠ 0 → width ≠ a.length := by
    rintro - h rfl
    exact h (Nat.mod_self _)
  simp only [split, telling_ite_iff, telling_error_iff, telling_ok, WireError.Telling]
  grind

end Numbers

namespace Scalar

@[simp] theorem telling_ofArray (a : Numbers) : (ofArray a).Telling := by
  unfold ofArray
  split
  · exact telling_ok _
  · rename_i hone
    rw [telling_error_iff]
    exact one_ne_length fun x hx => hone a.kind x (by rw [← hx])

@[simp] theorem telling_itemOf (s : Scalar) : (s.itemOf k).Telling := by
  simp [itemOf]

end Scalar

end Numeric

section Tree

variable {α : Type _}

namespace Container

@[simp] theorem telling_make (kind : ListKind) (t : Option String) (items : List α) :
    (make kind t items).Telling := by
  simp [make]

@[simp] theorem telling_expectType (l : Container α) (t : String) : (l.expectType t).Telling := by
  simp [expectType]

@[simp] theorem telling_expectKind (l : Container α) (kind : ListKind) (what : String) :
    (l.expectKind kind what).Telling := by
  simp [expectKind]

end Container

namespace Element

@[simp] theorem telling_make (i : Key) (t : Tag) (c : Content) : (make i t c).Telling := by
  unfold make
  split <;> simp

@[simp] theorem telling_arrayOf (k : NumericKind) (e : Element) : (e.arrayOf k).Telling := by
  unfold arrayOf
  split <;> simp

@[simp] theorem telling_array (e : Element) : e.array.Telling := by
  unfold array
  split <;> simp

@[simp] theorem telling_text (e : Element) : e.text.Telling := by
  unfold text
  split
  · split <;> simp
  · simp

@[simp] theorem telling_listOf (kind : ListKind) (e : Element) : (e.listOf kind).Telling := by
  unfold listOf
  split <;> simp

@[simp] theorem telling_list (e : Element) : e.list.Telling := by
  unfold list
  split <;> simp

end Element

@[simp] theorem telling_position (n : Nat) : (position n).Telling := by
  simp [position]

@[simp] theorem telling_expectPositionsFrom (n : Nat) (ids : List Key) :
    (expectPositionsFrom n ids).Telling := by
  induction ids generalizing n with
  | nil => simp [expectPositionsFrom]
  | cons i rest ih => simp [expectPositionsFrom, ih]

@[simp] theorem telling_expectPositions (ids : List Key) : (expectPositions ids).Telling :=
  telling_expectPositionsFrom 0 ids

theorem telling_packEachFrom {pack : Int32 → α → Checked Element} {xs : List α}
    (h : ∀ x ∈ xs, ∀ i, (pack i x).Telling) (n : Nat) : (packEachFrom n pack xs).Telling := by
  induction xs generalizing n with
  | nil => simp [packEachFrom]
  | cons x xs ih =>
    obtain ⟨hx, hxs⟩ := List.forall_mem_cons.mp h
    simp [packEachFrom, hx, ih hxs]

theorem telling_packEach {pack : Int32 → α → Checked Element} {xs : List α}
    (h : ∀ x ∈ xs, ∀ i, (pack i x).Telling) : (packEach pack xs).Telling :=
  telling_packEachFrom h 0

namespace NamedChildren

@[simp] theorem telling_extend (seen : List (String × α)) (xs : List (Key × α)) :
    (extend seen xs).Telling := by
  induction xs generalizing seen with
  | nil => simp [extend]
  | cons x xs ih =>
    obtain ⟨_ | _, _⟩ := x
    · simp [extend, ih]
    · simp [extend]

@[simp] theorem telling_ofList (xs : List (Key × α)) : (ofList xs).Telling := telling_extend [] xs

@[simp] theorem telling_take (c : NamedChildren α) (s : String) : (c.take s).Telling := by
  unfold take
  split <;> simp

@[simp] theorem telling_expectNone (c : NamedChildren α) : c.expectNone.Telling := by
  unfold expectNone
  split <;> simp

end NamedChildren

end Tree

section Shapes

theorem axes_injective : Function.Injective axes :=
  List.map_injective_iff.mpr fun _ _ => UInt32.toNat_inj.mp

@[simp] theorem telling_dimsCount (dims : List UInt32) : (dimsCount dims).Telling := by
  unfold dimsCount
  split <;> simp

@[simp] theorem telling_expectCount (dims : List UInt32) (n : Nat) :
    (expectCount dims n).Telling := by
  simp [expectCount]

@[simp] theorem telling_expectDims (expected : Option (List UInt32)) (found : List UInt32) :
    (expectDims expected found).Telling := by
  cases expected <;> simp [expectDims, axes_injective.ne_iff]

@[simp] theorem Block.telling_make {α : Type _} (dims : List UInt32) (items : List α) :
    (Block.make dims items).Telling := by
  simp [Block.make]

@[simp] theorem telling_wrapBlock (kind : ListKind) (t : Option String) (dims : List UInt32)
    (array : Element) : (wrapBlock kind t dims array).Telling := by
  simp [wrapBlock]

@[simp] theorem telling_unwrapBlock {α : Type _} (view : α → Element) (items : List α) :
    (unwrapBlock view items).Telling := by
  simp [unwrapBlock]

@[simp] theorem Extent.telling_check (len : Extent) (n : Nat) : (len.check n).Telling := by
  cases len with
  | free => simp [check]
  | fixed m =>
    simp only [check, telling_ite_iff, telling_ok, telling_error_iff, WireError.Telling]
    grind
  | bounded m =>
    simp only [check, telling_ite_iff, telling_ok, telling_error_iff, WireError.Telling]
    grind

@[simp] theorem Ty.telling_keyKind (d : Ty) : d.keyKind.Telling := by
  unfold keyKind
  split <;> simp

@[simp] theorem HostType.telling_ofValue (t : HostType) (v : Value) : (t.ofValue v).Telling := by
  induction t with
  | option t ih => cases v <;> simp [ofValue, ih]
  | _ => cases v <;> simp [ofValue]

@[simp] theorem Record.telling_get (r : Record Value) (t : HostType) (name : String) :
    (r.get t name).Telling := by
  unfold Record.get
  split <;> simp

end Shapes

section Definitions

@[simp] theorem telling_splitName (q : String) : (splitName q).Telling := by
  unfold splitName
  split <;> simp

@[simp] theorem telling_expectDistinct (seen : List String) (fields : List Field) :
    (expectDistinct seen fields).Telling := by
  induction fields generalizing seen with
  | nil => simp [expectDistinct]
  | cons f fields ih => simp [expectDistinct, ih]

@[simp] theorem StructType.telling_make (t : String) (fields : List Field) :
    (StructType.make t fields).Telling := by
  simp [StructType.make]

namespace NamedType

@[simp] theorem telling_length (k : NumericKind) (p : NamedPart) : (p.length k).Telling := by
  cases p <;> simp [NamedPart.length]

@[simp] theorem telling_layFields (offset : Nat) (laid : List FieldRange)
    (lengths : List (String × Nat)) : (layFields offset laid lengths).Telling := by
  induction lengths generalizing offset laid with
  | nil => simp [layFields]
  | cons f lengths ih => simp [layFields, ih]

@[simp] theorem telling_make (t : String) (k : NumericKind) (parts : List (String × NamedPart)) :
    (make t k parts).Telling := by
  simp [make, telling_mapM]

variable (d : NamedType)

@[simp] theorem telling_expectRecord (r : NamedRecord) : (d.expectRecord r).Telling := by
  simp only [expectRecord, telling_ite_iff, telling_ok, telling_error_iff, WireError.Telling]
  grind

@[simp] theorem telling_size : d.size.Telling := telling_word _

@[simp] theorem telling_record (a : Numbers) : (d.record a).Telling := by
  simp [record]

@[simp] theorem telling_get (r : NamedRecord) (name : String) : (d.get r name).Telling := by
  unfold get
  split <;> simp

end NamedType

@[simp] theorem PodMember.telling_named (name : String) (of : NamedType) (shape : Shape) :
    (named name of shape).Telling := by
  simp [named]

namespace PodType

@[simp] theorem telling_layout (t : String) (size : Nat) (fields : List PodMember) :
    (layout t size fields).Telling := by
  induction fields generalizing size with
  | nil => simp [layout]
  | cons f fields ih =>
    unfold layout
    split <;> simp [ih]

@[simp] theorem telling_make (t : String) (fields : List PodMember) : (make t fields).Telling := by
  simp [make]

end PodType

namespace Service

@[simp] theorem telling_index {δ : Type} (owner : String) (typeName : δ → String)
    (seen : List (String × δ)) (ds : List δ) : (index owner typeName seen ds).Telling := by
  induction ds generalizing seen with
  | nil => simp [index]
  | cons d ds ih => simp [index, ih]

@[simp] theorem telling_make (owner : String) (structs : List StructType) (pods : List PodType)
    (named : List NamedType) : (make owner structs pods named).Telling := by
  simp [make]

end Service

namespace Registry

variable (r : Registry)

@[simp] theorem telling_register (s : Service) : (r.register s).Telling := by
  simp [register]

@[simp] theorem telling_service (ns : String) : (r.service ns).Telling := by
  unfold service
  split <;> simp

@[simp] theorem telling_resolve (q : String) : (r.resolve q).Telling := by
  simp [resolve]

end Registry

namespace Scope

@[simp] theorem telling_bind (r : Registry) (ns : String) : (bind r ns).Telling := by
  simp [bind]

@[simp] theorem telling_definition {δ : Type} (Γ : Scope) (find : Service → String → Option δ)
    (q : String) : (Γ.definition find q).Telling := by
  unfold definition
  simp only [telling_bind_iff, telling_splitName, true_and]
  intro p _
  split <;> simp

variable (Γ : Scope) (q : String)

@[simp] theorem telling_struct : (Γ.struct q).Telling := Γ.telling_definition _ q

@[simp] theorem telling_pod : (Γ.pod q).Telling := Γ.telling_definition _ q

@[simp] theorem telling_named : (Γ.named q).Telling := Γ.telling_definition _ q

end Scope

end Definitions

end TypedWire
