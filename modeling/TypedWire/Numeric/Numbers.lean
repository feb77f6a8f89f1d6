import TypedWire.Numeric.Item

namespace TypedWire

def ceilDiv (a b : Nat) : Nat := (a + b - 1) / b

def wordBound : Nat := UInt64.size

/-- What unguarded arithmetic on 64-bit words gives. -/
def word (n : Nat) : Checked Nat := if n < wordBound then .ok n else .error .overflow

structure Numbers where
  kind : NumericKind
  items : List (Item kind)
  deriving DecidableEq

structure Scalar where
  kind : NumericKind
  item : Item kind
  deriving DecidableEq

namespace Numbers

def tag (a : Numbers) : Tag := .flat (.numeric a.kind)

def length (a : Numbers) : Nat := a.items.length

def bytes (a : Numbers) : List UInt8 := a.items.flatMap Item.bytes

@[simp] theorem length_bytes (a : Numbers) : a.bytes.length = a.length * a.kind.width := by
  rcases a with ⟨k, items⟩
  simp only [bytes, length]
  induction items with
  | nil => simp
  | cons x xs ih => simp [ih, Nat.succ_mul]; omega

def ofBytes (k : NumericKind) (bs : List UInt8) : Checked Numbers :=
  if bs.length % k.width = 0 then
    return ⟨k, ← (pieces k.width (bs.length / k.width) bs).mapM (Item.ofBytes k)⟩
  else .error (.invalidPayload (.flat (.numeric k)) (.ragged bs.length k.width))

def itemsOf (k : NumericKind) (a : Numbers) : Checked (List (Item k)) :=
  if h : a.kind = k then .ok (h ▸ a.items)
  else .error (.typeMismatch k.name a.kind.name)

@[simp] theorem itemsOf_mk (k : NumericKind) (items : List (Item k)) :
    itemsOf k ⟨k, items⟩ = .ok items := by simp [itemsOf]

def get? (a : Numbers) (i : Nat) : Option Scalar := a.items[i]?.map (⟨a.kind, ·⟩)

def slice (a : Numbers) (start n : Nat) : Checked Numbers :=
  if start + n ≤ a.length then .ok ⟨a.kind, (a.items.drop start).take n⟩
  else .error (.outOfBounds (.slice start (min (start + n) (wordBound - 1)) a.length))

def concat (k : NumericKind) (parts : List Numbers) : Checked Numbers :=
  return ⟨k, (← parts.mapM (itemsOf k)).flatten⟩

def split (a : Numbers) (width : Nat) : Checked (List Numbers) :=
  if width = 0 ∨ a.length % width ≠ 0 then .error (.lengthMismatch width a.length)
  else .ok ((pieces width (a.length / width) a.items).map (⟨a.kind, ·⟩))

def numEq (a b : Numbers) : Bool :=
  match itemsOf a.kind b with
  | .ok items => a.items.length == items.length && (a.items.zip items).all fun (x, y) => x.numEq y
  | .error _ => false

theorem ofBytes_bytes (a : Numbers) : ofBytes a.kind a.bytes = .ok a := by
  rcases a with ⟨k, items⟩
  have hw := k.width_pos
  have hl : (bytes ⟨k, items⟩).length = items.length * k.width := length_bytes _
  have hp : pieces k.width items.length (bytes ⟨k, items⟩) = items.map Item.bytes := by
    have := @pieces_flatten _ k.width (items.map Item.bytes) (by simp)
    simpa [bytes, List.flatMap] using this
  have hm : (items.map Item.bytes).mapM (Item.ofBytes k) = (.ok items : Checked _) := by
    clear hl hp
    induction items with
    | nil => rfl
    | cons x xs ih => simp only [List.map_cons, List.mapM_cons, Item.ofBytes_bytes, ih]; rfl
  simp only [ofBytes, hl, Nat.mul_mod_left, if_true, Nat.mul_div_cancel _ hw, hp, hm]
  rfl

theorem flatMap_bytes_of_mapM {k : NumericKind} {ps : List (List UInt8)} {items : List (Item k)}
    (hp : ∀ p ∈ ps, p.length = k.width) (h : ps.mapM (Item.ofBytes k) = .ok items) :
    items.flatMap Item.bytes = ps.flatten := by
  induction ps generalizing items with
  | nil =>
    cases h
    rfl
  | cons p ps ih =>
    rw [List.mapM_cons] at h
    cases hx : Item.ofBytes k p with
    | error e => rw [hx] at h; cases h
    | ok x =>
      cases hxs : ps.mapM (Item.ofBytes k) with
      | error e => rw [hx, hxs] at h; cases h
      | ok xs =>
        rw [hx, hxs] at h
        cases h
        rw [List.flatMap_cons, List.flatten_cons, Item.bytes_ofBytes (hp p List.mem_cons_self) hx,
          ih (fun q hq => hp q (List.mem_cons_of_mem _ hq)) hxs]

theorem bytes_ofBytes {k : NumericKind} {bs : List UInt8} {a : Numbers}
    (h : ofBytes k bs = .ok a) : a.bytes = bs := by
  unfold ofBytes at h
  split at h
  · rename_i hd
    have hl : bs.length = bs.length / k.width * k.width :=
      (Nat.div_mul_cancel (Nat.dvd_of_mod_eq_zero hd)).symm
    cases hm : (pieces k.width (bs.length / k.width) bs).mapM (Item.ofBytes k) with
    | error e => rw [hm] at h; cases h
    | ok items =>
      rw [hm] at h
      cases h
      have := flatMap_bytes_of_mapM (fun p hp => length_of_mem_pieces (Nat.le_of_eq hl.symm) hp) hm
      rw [bytes, this, flatten_pieces hl]
  · cases h

end Numbers

namespace Scalar

def toArray (s : Scalar) : Numbers := ⟨s.kind, [s.item]⟩

def ofArray (a : Numbers) : Checked Scalar :=
  match a with
  | ⟨k, [x]⟩ => .ok ⟨k, x⟩
  | a => .error (.lengthMismatch 1 a.length)

@[simp] theorem ofArray_toArray (s : Scalar) : ofArray s.toArray = .ok s := rfl

def itemOf (k : NumericKind) (s : Scalar) : Checked (Item k) :=
  if h : s.kind = k then .ok (h ▸ s.item)
  else .error (.typeMismatch k.name s.kind.name)

def numEq (a b : Scalar) : Bool := a.toArray.numEq b.toArray

end Scalar

end TypedWire
