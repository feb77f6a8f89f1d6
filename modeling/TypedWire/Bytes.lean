namespace TypedWire

def littleEndian : Nat → Nat → List UInt8
  | 0, _ => []
  | w + 1, n => UInt8.ofNat n :: littleEndian w (n / 256)

def ofLittleEndian : List UInt8 → Nat
  | [] => 0
  | b :: bs => b.toNat + 256 * ofLittleEndian bs

@[simp] theorem length_littleEndian (w n : Nat) : (littleEndian w n).length = w := by
  induction w generalizing n with
  | zero => rfl
  | succ w ih => simp [littleEndian, ih]

theorem ofLittleEndian_littleEndian {w n : Nat} (h : n < Nat.pow 256 w) :
    ofLittleEndian (littleEndian w n) = n := by
  induction w generalizing n with
  | zero => exact (Nat.lt_one_iff.mp h).symm
  | succ w ih =>
    have hd : n / 256 < Nat.pow 256 w := by
      change n < Nat.pow 256 w * 256 at h
      omega
    simp only [littleEndian, ofLittleEndian, ih hd, UInt8.toNat_ofNat']
    omega

theorem ofLittleEndian_lt (bs : List UInt8) : ofLittleEndian bs < Nat.pow 256 bs.length := by
  induction bs with
  | nil => exact Nat.zero_lt_one
  | cons b bs ih =>
    have hb : b.toNat < 256 := b.toNat_lt
    change b.toNat + 256 * ofLittleEndian bs < Nat.pow 256 bs.length * 256
    omega

theorem littleEndian_ofLittleEndian (bs : List UInt8) :
    littleEndian bs.length (ofLittleEndian bs) = bs := by
  induction bs with
  | nil => rfl
  | cons b bs ih =>
    have hb : b.toNat < 256 := b.toNat_lt
    have hq : (b.toNat + 256 * ofLittleEndian bs) / 256 = ofLittleEndian bs := by omega
    have hr : UInt8.ofNat (b.toNat + 256 * ofLittleEndian bs) = b := by
      apply UInt8.toNat_inj.mp
      rw [UInt8.toNat_ofNat']
      omega
    rw [List.length_cons, ofLittleEndian, littleEndian, hq, hr, ih]

variable {α : Type _}

def pieces (w : Nat) : Nat → List α → List (List α)
  | 0, _ => []
  | n + 1, xs => xs.take w :: pieces w n (xs.drop w)

@[simp] theorem length_pieces (w n : Nat) (xs : List α) : (pieces w n xs).length = n := by
  induction n generalizing xs with
  | zero => rfl
  | succ n ih => simp [pieces, ih]

theorem flatten_pieces {w n : Nat} {xs : List α} (h : xs.length = n * w) :
    (pieces w n xs).flatten = xs := by
  induction n generalizing xs with
  | zero => simp_all [pieces]
  | succ n ih =>
    have hd : (xs.drop w).length = n * w := by
      rw [List.length_drop, h, Nat.succ_mul]
      omega
    simp [pieces, ih hd]

theorem length_of_mem_pieces {w n : Nat} {xs p : List α} (h : n * w ≤ xs.length)
    (hp : p ∈ pieces w n xs) : p.length = w := by
  induction n generalizing xs with
  | zero => simp [pieces] at hp
  | succ n ih =>
    rw [Nat.succ_mul] at h
    rcases List.mem_cons.mp hp with rfl | hp
    · rw [List.length_take]; omega
    · exact ih (by rw [List.length_drop]; omega) hp

theorem pieces_flatten {w : Nat} {ps : List (List α)} (h : ∀ p ∈ ps, p.length = w) :
    pieces w ps.length ps.flatten = ps := by
  induction ps with
  | nil => rfl
  | cons p ps ih =>
    have hp : p.length = w := h p List.mem_cons_self
    have := ih fun q hq => h q (List.mem_cons_of_mem _ hq)
    subst hp
    simp [pieces, this]

end TypedWire
