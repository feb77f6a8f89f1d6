import TypedWire.Bytes
import TypedWire.Error

/-!
Items: single numbers, held as the bits they have on the wire.

Floats are never computed with, only moved and compared, so an item of any kind is the bit pattern
of its bytes; of the boolean patterns only 0 and 1 are items. `Item.ofBytes_bytes` and
`Item.bytes_ofBytes` say that items and their bytes determine each other.
-/

namespace TypedWire

inductive NumericForm
  | int (signed : Bool)
  | bool
  | float (fractionBits exponentBits : Nat)
  | complex (fractionBits exponentBits : Nat)
  deriving DecidableEq

def NumericKind.form : NumericKind → NumericForm
  | .double => .float 52 11
  | .single => .float 23 8
  | .complexDouble => .complex 52 11
  | .complexSingle => .complex 23 8
  | .bool => .bool
  | .int8 | .int16 | .int32 | .int64 => .int true
  | .uint8 | .uint16 | .uint32 | .uint64 => .int false

/-- One number of the kind; a complex number has its real part in the low half. -/
structure Item (kind : NumericKind) where
  bits : BitVec (8 * kind.width)
  isBool : kind = .bool → bits.toNat ≤ 1
  deriving DecidableEq

namespace Item

variable {k : NumericKind}

@[ext] theorem ext {a b : Item k} (h : a.bits = b.bits) : a = b := by
  cases a; cases b; cases h; rfl

def toNat (a : Item k) : Nat := a.bits.toNat

theorem toNat_lt (a : Item k) : a.toNat < Nat.pow 256 k.width := by
  have h := a.bits.isLt
  rw [Nat.pow_mul] at h
  exact h

def ofNat? (k : NumericKind) (n : Nat) : Option (Item k) :=
  if h : n < Nat.pow 2 (8 * k.width) ∧ (k = .bool → n ≤ 1) then some ⟨.ofNatLT n h.1, h.2⟩ else none

def toInt (signed : Bool) (a : Item k) : Int :=
  if signed then a.bits.toInt else a.bits.toNat

def ofInt? (k : NumericKind) (n : Int) : Option (Item k) :=
  match k.form with
  | .int signed =>
    let a := BitVec.ofInt (8 * k.width) n
    if h : (if signed then a.toInt else a.toNat) = n ∧ k ≠ .bool then
      some ⟨a, fun hb => absurd hb h.2⟩
    else none
  | _ => none

def ofInt32 (n : Int32) : Item .int32 := ⟨n.toBitVec, nofun⟩

def toInt32 (a : Item .int32) : Int32 := ⟨⟨a.bits⟩⟩

@[simp] theorem toInt32_ofInt32 (n : Int32) : toInt32 (ofInt32 n) = n := rfl

@[simp] theorem ofInt32_toInt32 (a : Item .int32) : ofInt32 (toInt32 a) = a := rfl

def ofUInt32 (n : UInt32) : Item .uint32 := ⟨n.toBitVec, nofun⟩

def toUInt32 (a : Item .uint32) : UInt32 := ⟨a.bits⟩

@[simp] theorem toUInt32_ofUInt32 (n : UInt32) : toUInt32 (ofUInt32 n) = n := rfl

@[simp] theorem ofUInt32_toUInt32 (a : Item .uint32) : ofUInt32 (toUInt32 a) = a := rfl

def bytes (a : Item k) : List UInt8 := littleEndian k.width a.toNat

@[simp] theorem length_bytes (a : Item k) : a.bytes.length = k.width :=
  length_littleEndian ..

def ofBytes (k : NumericKind) (bs : List UInt8) : Checked (Item k) :=
  let n := ofLittleEndian bs
  if h : k = .bool → n ≤ 1 then
    .ok ⟨.ofNat _ n, fun hk => Nat.le_trans (Nat.mod_le ..) (h hk)⟩
  else .error (.invalidBool (UInt8.ofNat n))

@[simp] theorem ofBytes_bytes (a : Item k) : ofBytes k a.bytes = .ok a := by
  have h : ofLittleEndian a.bytes = a.toNat := ofLittleEndian_littleEndian a.toNat_lt
  have hb : k = .bool → ofLittleEndian a.bytes ≤ 1 := fun hk => h ▸ a.isBool hk
  simp only [ofBytes, dif_pos hb]
  congr 1
  ext1
  simp [h, toNat]

theorem bytes_ofBytes {bs : List UInt8} {a : Item k} (hl : bs.length = k.width)
    (h : ofBytes k bs = .ok a) : a.bytes = bs := by
  simp only [ofBytes] at h
  split at h
  · cases h
    have hlt : ofLittleEndian bs < 2 ^ (8 * k.width) := by
      have h := ofLittleEndian_lt bs
      rw [hl] at h
      exact Nat.lt_of_lt_of_eq h (Nat.pow_mul 2 8 k.width).symm
    simp only [bytes, toNat, BitVec.toNat_ofNat, Nat.mod_eq_of_lt hlt]
    rw [← hl, littleEndian_ofLittleEndian]
  · cases h

/-- Equality of two floats with these many fraction and exponent bits: a NaN differs from
everything, the two zeros are equal. -/
def floatEq (fractionBits exponentBits : Nat) (a b : Nat) : Bool :=
  let magnitude n := n % Nat.pow 2 (fractionBits + exponentBits)
  let isNaN n := (Nat.pow 2 exponentBits - 1) * Nat.pow 2 fractionBits < magnitude n
  !isNaN a && !isNaN b && (a == b || (magnitude a == 0 && magnitude b == 0))

def numEq (a b : Item k) : Bool :=
  match k.form with
  | .int _ | .bool => a.bits == b.bits
  | .float f e => floatEq f e a.toNat b.toNat
  | .complex f e =>
    let half := Nat.pow 2 (f + e + 1)
    floatEq f e (a.toNat % half) (b.toNat % half) && floatEq f e (a.toNat / half) (b.toNat / half)

end Item

end TypedWire
