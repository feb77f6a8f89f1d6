import Mathlib
import TypedWire.Proofs.Results
import TypedWire.Proxy

namespace TypedWire

@[simp] theorem cellsOf_cons (d : Nat) (ds : List Nat) : cellsOf (d :: ds) = d * cellsOf ds := rfl

theorem cellsOf_append (ds es : List Nat) : cellsOf (ds ++ es) = cellsOf ds * cellsOf es := by
  induction ds with
  | nil => exact (Nat.one_mul _).symm
  | cons d ds ih => rw [List.cons_append, cellsOf_cons, cellsOf_cons, ih, Nat.mul_assoc]

theorem countFrom_eq_some {ds : List Nat} {acc n : Nat} (h : countFrom acc ds = some n) :
    n = acc * cellsOf ds := by
  induction ds generalizing acc with
  | nil =>
    cases h
    exact (Nat.mul_one _).symm
  | cons d ds ih =>
    simp only [countFrom, Option.ite_none_right_eq_some] at h
    rw [ih h.2, cellsOf_cons, Nat.mul_assoc]

theorem count?_eq_some {ds : List Nat} {n : Nat} (h : count? ds = some n) : n = cellsOf ds := by
  rw [countFrom_eq_some h, Nat.one_mul]

theorem countFrom_mono {cs ds : List Nat} (h : List.Forall₂ (· ≤ ·) cs ds) {acc acc' n : Nat}
    (hacc : acc ≤ acc') (hn : countFrom acc' ds = some n) : ∃ m, countFrom acc cs = some m := by
  induction h generalizing acc acc' with
  | nil => exact ⟨acc, rfl⟩
  | cons hc _ ih =>
    simp only [countFrom, Option.ite_none_right_eq_some] at hn
    have hle := Nat.mul_le_mul hacc hc
    rw [countFrom, if_pos (Nat.lt_of_le_of_lt hle hn.1)]
    exact ih hle hn.2

theorem exists_count? {cs ds : List Nat} (h : List.Forall₂ (· ≤ ·) cs ds) {n : Nat}
    (hn : count? ds = some n) : count? cs = some (cellsOf cs) := by
  obtain ⟨m, hm⟩ := countFrom_mono h (Nat.le_refl 1) hn
  rw [← count?_eq_some hm, count?, hm]

namespace BlockPlan

theorem length_cells (counts : List Nat) : (cells counts).length = cellsOf counts := by
  induction counts with
  | nil => rfl
  | cons c cs ih =>
    simp [cells, List.length_flatMap, ih, Nat.mul_comm]

theorem forall₂_lt_of_mem_cells {counts i : List Nat} (h : i ∈ cells counts) :
    List.Forall₂ (· < ·) i counts := by
  induction counts generalizing i with
  | nil =>
    rw [List.mem_singleton.mp h]
    exact .nil
  | cons c cs ih =>
    simp only [cells, List.mem_flatMap, List.mem_map, List.mem_range] at h
    obtain ⟨is, his, n, hn, rfl⟩ := h
    exact .cons hn (ih his)

end BlockPlan

namespace Region

open BlockPlan

variable {dims pos counts : List Nat}

@[simp] theorem cellCount_eq_ok {n : Nat} : cellCount counts = .ok n ↔ count? counts = some n := by
  unfold cellCount
  cases count? counts <;> simp

@[simp] theorem expectVolume_eq_ok {n : Nat} : expectVolume n dims = .ok () ↔
    count? dims = some n := by
  simp [expectVolume]

@[simp] theorem expectSpan_eq_ok {what : String} {length pos n : Nat} :
    expectSpan what length pos n = .ok () ↔ pos + n ≤ length := by
  simp [expectSpan]

inductive Within : (dims pos counts : List Nat) → Prop
  | nil : Within [] [] []
  | cons {d p c ds ps cs} : p + c ≤ d → Within ds ps cs → Within (d :: ds) (p :: ps) (c :: cs)

theorem expectAxes_eq_ok {what : String} {axis : Nat} (hp : pos.length = dims.length)
    (hc : counts.length = dims.length) :
    expectAxes what axis dims pos counts = .ok () ↔ Within dims pos counts := by
  induction dims generalizing axis pos counts with
  | nil =>
    rw [List.length_eq_zero_iff.mp hp, List.length_eq_zero_iff.mp hc]
    exact ⟨fun _ => .nil, fun _ => rfl⟩
  | cons d ds ih =>
    obtain ⟨p, ps, rfl⟩ := List.exists_cons_of_length_eq_add_one hp
    obtain ⟨c, cs, rfl⟩ := List.exists_cons_of_length_eq_add_one hc
    rw [expectAxes, Checked.guard_eq_ok, ih (Nat.succ.inj hp) (Nat.succ.inj hc)]
    constructor
    · rintro ⟨h, hw⟩
      exact .cons h hw
    · rintro (_ | ⟨h, hw⟩)
      exact ⟨h, hw⟩

namespace Within

theorem length_pos (h : Within dims pos counts) : pos.length = dims.length := by
  induction h with
  | nil => rfl
  | cons _ _ ih => rw [List.length_cons, ih, List.length_cons]

theorem length_counts (h : Within dims pos counts) : counts.length = dims.length := by
  induction h with
  | nil => rfl
  | cons _ _ ih => rw [List.length_cons, ih, List.length_cons]

theorem counts_le (h : Within dims pos counts) : List.Forall₂ (· ≤ ·) counts dims := by
  induction h with
  | nil => exact .nil
  | cons h _ ih => exact .cons (by omega) ih

theorem add_lt (h : Within dims pos counts) {n : Nat} (hd : ∀ d ∈ dims, d < n) :
    List.Forall₂ (fun p c => p + c < n) pos counts := by
  induction h with
  | nil => exact .nil
  | cons h _ ih =>
    obtain ⟨hd0, hd⟩ := List.forall_mem_cons.mp hd
    exact .cons (Nat.lt_of_le_of_lt h hd0) (ih hd)

theorem origin (ns : List Nat) : Within ns (ns.map fun _ => 0) ns := by
  induction ns with
  | nil => exact .nil
  | cons n ns ih => exact .cons (Nat.le_of_eq (Nat.zero_add n)) ih

theorem add {offset inner : List Nat} (h : Within dims pos counts)
    (hi : Within counts offset inner) : Within dims (List.zipWith (· + ·) pos offset) inner := by
  induction h generalizing offset inner with
  | nil =>
    cases hi
    exact .nil
  | cons h _ ih =>
    cases hi with
    | cons hi hw => exact .cons (by dsimp only; omega) (ih hw)

end Within

@[simp] theorem expectPart_eq_ok {what : String} :
    expectPart what dims pos counts = .ok () ↔ dims ≠ [] ∧ Within dims pos counts := by
  simp only [expectPart, Checked.refuse_eq_ok, not_not]
  constructor
  · rintro ⟨hd, hp, hc, h⟩
    exact ⟨hd, (expectAxes_eq_ok hp hc).mp h⟩
  · rintro ⟨hd, h⟩
    exact ⟨hd, h.length_pos, h.length_counts, (expectAxes_eq_ok h.length_pos h.length_counts).mpr h⟩

def address : (dims pos offsets : List Nat) → Nat
  | d :: ds, p :: ps, i :: is => p + i + d * address ds ps is
  | _, _, _ => 0

theorem address_add (dims pos o i : List Nat) :
    address dims (List.zipWith (· + ·) pos o) i = address dims pos (List.zipWith (· + ·) o i) := by
  induction dims generalizing pos o i with
  | nil => rfl
  | cons d ds ih =>
    rcases pos with _ | ⟨p, ps⟩ <;> rcases o with _ | ⟨n, o⟩ <;> rcases i with _ | ⟨m, i⟩ <;>
      first
      | rfl
      | simp only [List.zipWith_cons_cons, address, ih, Nat.add_assoc]

theorem addresses_eq (h : Within dims pos counts) :
    addresses dims pos counts = (cells counts).map (address dims pos) := by
  induction h with
  | nil => rfl
  | cons _ _ ih =>
    simp only [addresses, cells, ih, List.flatMap_map, List.map_flatMap, List.map_map,
      Function.comp_def, address]

theorem length_addresses (h : Within dims pos counts) :
    (addresses dims pos counts).length = cellsOf counts := by
  rw [addresses_eq h, List.length_map, length_cells]

theorem addresses_lt (h : Within dims pos counts) :
    ∀ a ∈ addresses dims pos counts, a < cellsOf dims := by
  induction h with
  | nil =>
    intro a ha
    rw [List.mem_singleton.mp ha]
    exact Nat.zero_lt_one
  | @cons d p c ds ps cs h _ ih =>
    intro a ha
    simp only [addresses, List.mem_flatMap, List.mem_map, List.mem_range] at ha
    obtain ⟨b, hb, i, hi, rfl⟩ := ha
    calc p + i + d * b < d + d * b := by omega
      _ = d * (b + 1) := by rw [Nat.mul_succ, Nat.add_comm]
      _ ≤ d * cellsOf ds := Nat.mul_le_mul_left d (ih b hb)
      _ = cellsOf (d :: ds) := by rw [cellsOf_cons]

theorem nodup_addresses (h : Within dims pos counts) : (addresses dims pos counts).Nodup := by
  induction h with
  | nil => exact List.nodup_singleton 0
  | @cons d p c ds ps cs h _ ih =>
    rw [addresses, List.nodup_flatMap]
    constructor
    · intro a _
      exact List.nodup_range.map fun i j hij => by omega
    · -- The address of a cell tells which run it is in.
      have hrun : ∀ n < c, ∀ r, (p + n + d * r) / d = r := by
        intro n hn r
        rw [Nat.add_mul_div_left _ _ (by omega), Nat.div_eq_of_lt (by omega), Nat.zero_add]
      refine ih.imp fun {a b} hne => ?_
      rw [Function.onFun, List.disjoint_left]
      simp only [List.mem_map, List.mem_range]
      rintro _ ⟨i, hi, rfl⟩ ⟨j, hj, hij⟩
      exact hne ((hrun i hi a).symm.trans (hij ▸ hrun j hj b))

theorem range_mul (d m : Nat) : List.range (d * m) =
    (List.range m).flatMap fun a => (List.range d).map fun i => i + d * a := by
  induction m with
  | zero => simp
  | succ m ih =>
    rw [Nat.mul_succ, List.range_add, ih, List.range_succ, List.flatMap_append]
    simp [Nat.add_comm]

theorem addresses_origin (ns : List Nat) :
    addresses ns (ns.map fun _ => 0) ns = List.range (cellsOf ns) := by
  induction ns with
  | nil => rfl
  | cons n ns ih =>
    simp only [List.map_cons, addresses, ih, range_mul, cellsOf_cons, Nat.zero_add]

theorem addresses_flat (len pos n : Nat) : addresses [len] [pos] [n] = List.range' pos n := by
  simp [addresses, List.range'_eq_map_range]

theorem addresses_eq_runs (h : Within dims pos counts) : addresses dims pos counts =
    (starts dims pos counts).flatMap (List.range' · (run counts)) := by
  cases h with
  | nil => rfl
  | @cons d p c ds ps cs h hw =>
    by_cases hc : c = 0
    · simp [addresses, starts, hc]
    · simp only [addresses, starts, if_neg hc, run, List.flatMap_map]
      apply List.flatMap_congr
      intro a _
      rw [List.range'_eq_map_range]
      apply List.map_congr_left
      intro i _
      omega

theorem length_starts {dims' pos' : List Nat} (h : Within dims pos counts)
    (h' : Within dims' pos' counts) :
    (starts dims pos counts).length = (starts dims' pos' counts).length := by
  cases h with
  | nil =>
    cases h'
    rfl
  | @cons d p c ds ps cs _ hw =>
    cases h' with
    | cons _ hw' =>
      by_cases hc : c = 0
      · simp [starts, hc]
      · simp [starts, hc, length_addresses hw, length_addresses hw']

theorem starts_le (h : Within dims pos counts) :
    ∀ s ∈ starts dims pos counts, s + run counts ≤ cellsOf dims := by
  intro s hs
  rcases Nat.eq_zero_or_pos (run counts) with hr | hr
  · cases h with
    | nil => cases hr
    | cons h hw =>
      simp only [run] at hr
      simp [starts, hr] at hs
  · have hmem : s + (run counts - 1) ∈ addresses dims pos counts := by
      rw [addresses_eq_runs h]
      exact List.mem_flatMap.mpr ⟨s, hs, List.mem_range'_1.mpr (by omega)⟩
    have := addresses_lt h _ hmem
    omega

end Region

end TypedWire
