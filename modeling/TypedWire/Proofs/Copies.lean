import TypedWire.Proofs.Cells

namespace TypedWire.Region

variable {α : Type}

def gather (xs : List α) (as : List Nat) : List α := as.filterMap (xs[·]?)

def scatter : List α → List Nat → List α → List α
  | dst, a :: as, v :: vs => scatter (dst.set a v) as vs
  | dst, _, _ => dst

@[simp] theorem gather_append (xs : List α) (as bs : List Nat) :
    gather xs (as ++ bs) = gather xs as ++ gather xs bs :=
  List.filterMap_append

theorem gather_flatMap {β : Type} (xs : List α) (ls : List β) (f : β → List Nat) :
    gather xs (ls.flatMap f) = ls.flatMap fun l => gather xs (f l) :=
  List.filterMap_flatMap

theorem length_gather {xs : List α} {as : List Nat} (h : ∀ a ∈ as, a < xs.length) :
    (gather xs as).length = as.length := by
  induction as with
  | nil => rfl
  | cons a as ih =>
    have ha := h a List.mem_cons_self
    rw [gather, List.filterMap_cons, List.getElem?_eq_getElem ha, List.length_cons]
    exact congrArg (· + 1) (ih fun b hb => h b (List.mem_cons_of_mem _ hb))

theorem getElem?_gather {xs : List α} {as : List Nat} (h : ∀ a ∈ as, a < xs.length) {i a : Nat}
    (ha : as[i]? = some a) : (gather xs as)[i]? = xs[a]? := by
  induction as generalizing i with
  | nil => cases ha
  | cons b as ih =>
    obtain ⟨hb, htail⟩ := List.forall_mem_cons.mp h
    rw [gather, List.filterMap_cons, List.getElem?_eq_getElem hb]
    cases i with
    | zero =>
      cases ha
      exact (List.getElem?_eq_getElem hb).symm
    | succ i => exact ih htail ha

theorem gather_range' (xs : List α) (start n : Nat) :
    gather xs (List.range' start n) = slice xs start n := by
  induction n generalizing start with
  | zero => simp [gather, slice]
  | succ n ih =>
    rw [List.range'_succ, ← List.singleton_append, gather_append, ih]
    cases h : xs[start]? with
    | none =>
      have hlen := List.getElem?_eq_none_iff.mp h
      simp [gather, slice, h, List.drop_of_length_le hlen,
        List.drop_of_length_le (Nat.le_succ_of_le hlen)]
    | some x =>
      obtain ⟨hlen, rfl⟩ := List.getElem?_eq_some_iff.mp h
      rw [slice, slice, List.drop_eq_getElem_cons hlen, List.take_succ_cons]
      simp [gather, h]

theorem mem_of_mem_gather {x : α} {xs : List α} {as : List Nat} (h : x ∈ gather xs as) :
    x ∈ xs := by
  obtain ⟨a, -, hx⟩ := List.mem_filterMap.mp h
  exact List.mem_of_getElem? hx

theorem mem_of_mem_slice {x : α} {xs : List α} {start n : Nat} (h : x ∈ slice xs start n) :
    x ∈ xs := by
  rw [← gather_range'] at h
  exact mem_of_mem_gather h

theorem gather_all (xs : List α) : gather xs (List.range xs.length) = xs := by
  rw [List.range_eq_range', gather_range', slice, List.drop_zero, List.take_length]

theorem gather_origin {ns : List Nat} {xs : List α} (h : count? ns = some xs.length) :
    gather xs (addresses ns (ns.map fun _ => 0) ns) = xs := by
  rw [addresses_origin, ← count?_eq_some h, gather_all]

@[simp] theorem length_scatter (dst : List α) (as : List Nat) (vs : List α) :
    (scatter dst as vs).length = dst.length := by
  induction as generalizing dst vs with
  | nil => simp [scatter]
  | cons a as ih =>
    cases vs with
    | nil => rfl
    | cons v vs => rw [scatter, ih, List.length_set]

structure SameOutside (as : List Nat) (xs ys : List α) : Prop where
  length_eq : ys.length = xs.length
  getElem?_eq : ∀ i ∉ as, ys[i]? = xs[i]?

theorem getElem?_scatter {as : List Nat} {i : Nat} (h : i ∉ as) (dst vs : List α) :
    (scatter dst as vs)[i]? = dst[i]? := by
  induction as generalizing dst vs with
  | nil => simp [scatter]
  | cons a as ih =>
    obtain ⟨ha, htail⟩ := List.ne_and_not_mem_of_not_mem_cons h
    cases vs with
    | nil => rfl
    | cons v vs => rw [scatter, ih htail, List.getElem?_set_ne ha.symm]

theorem getElem?_scatter_self {as : List Nat} {vs : List α} {i a : Nat} {v : α} (h : as.Nodup)
    {dst : List α} (ha : as[i]? = some a) (hv : vs[i]? = some v) (hlt : a < dst.length) :
    (scatter dst as vs)[a]? = some v := by
  induction as generalizing dst vs i with
  | nil => cases ha
  | cons b as ih =>
    obtain ⟨hb, htail⟩ := List.nodup_cons.mp h
    cases vs with
    | nil => cases hv
    | cons w vs =>
      cases i with
      | zero =>
        cases ha
        cases hv
        rw [scatter, getElem?_scatter hb, List.getElem?_set_self hlt]
      | succ i => exact ih htail ha hv (by rwa [List.length_set])

theorem gather_scatter {as : List Nat} {dst vs : List α} (h : as.Nodup)
    (hlt : ∀ a ∈ as, a < dst.length) (hlen : as.length = vs.length) :
    gather (scatter dst as vs) as = vs := by
  have hlt' : ∀ a ∈ as, a < (scatter dst as vs).length := by
    rw [length_scatter]
    exact hlt
  apply List.ext_getElem
  · exact (length_gather hlt').trans hlen
  · intro i hi hi'
    have ha : as[i]? = some as[i] := List.getElem?_eq_getElem (hlen ▸ hi')
    apply Option.some.inj
    rw [← List.getElem?_eq_getElem hi, getElem?_gather hlt' ha]
    exact getElem?_scatter_self h ha (List.getElem?_eq_getElem hi') (hlt _ (List.getElem_mem _))

namespace SameOutside

variable {as bs : List Nat} {xs ys : List α}

protected theorem refl (as : List Nat) (xs : List α) : SameOutside as xs xs := ⟨rfl, fun _ _ => rfl⟩

theorem scatter (h : SameOutside as xs ys) (hsub : ∀ b ∈ bs, b ∈ as) (vs : List α) :
    SameOutside as xs (scatter ys bs vs) where
  length_eq := (length_scatter ..).trans h.length_eq
  getElem?_eq i hi :=
    (getElem?_scatter (fun hb => hi (hsub i hb)) ys vs).trans (h.getElem?_eq i hi)

end SameOutside

theorem scatter_append (dst : List α) {as bs : List Nat} {vs ws : List α}
    (h : as.length = vs.length) :
    scatter dst (as ++ bs) (vs ++ ws) = scatter (scatter dst as vs) bs ws := by
  induction as generalizing dst vs with
  | nil =>
    rw [List.length_eq_zero_iff.mp h.symm]
    rfl
  | cons a as ih =>
    obtain ⟨v, vs, rfl⟩ := List.exists_cons_of_length_eq_add_one h.symm
    exact ih _ (Nat.succ.inj h)

theorem splice_cons {xs ys : List α} {y : α} {start : Nat}
    (h : start + (y :: ys).length ≤ xs.length) :
    splice xs start (y :: ys) = splice (xs.set start y) (start + 1) ys := by
  rw [List.length_cons] at h
  have hlt : start < xs.length := by omega
  simp only [splice, List.length_cons]
  rw [List.take_succ_eq_append_getElem (by rw [List.length_set]; exact hlt), List.getElem_set_self,
    List.take_set_of_le (Nat.le_refl _), List.drop_set_of_lt (by omega)]
  simp [Nat.add_assoc, Nat.add_comm 1]

theorem splice_eq_scatter {xs ys : List α} {start : Nat} (h : start + ys.length ≤ xs.length) :
    splice xs start ys = scatter xs (List.range' start ys.length) ys := by
  induction ys generalizing xs start with
  | nil => simp [splice, scatter]
  | cons y ys ih =>
    rw [splice_cons h, ih (by rw [List.length_set]; rw [List.length_cons] at h; omega)]
    rfl

theorem copyRuns_eq {n : Nat} {src dst : List α} {ss ds : List Nat} (hl : ss.length = ds.length)
    (hs : ∀ s ∈ ss, s + n ≤ src.length) (hd : ∀ d ∈ ds, d + n ≤ dst.length) :
    copyRuns n src dst (ss.zip ds) =
      scatter dst (ds.flatMap (List.range' · n)) (gather src (ss.flatMap (List.range' · n))) := by
  induction ss generalizing ds dst with
  | nil =>
    rw [List.length_eq_zero_iff.mp hl.symm]
    rfl
  | cons s ss ih =>
    obtain ⟨d, ds, rfl⟩ := List.exists_cons_of_length_eq_add_one hl.symm
    obtain ⟨hs0, hs⟩ := List.forall_mem_cons.mp hs
    obtain ⟨hd0, hd⟩ := List.forall_mem_cons.mp hd
    have hlen : (slice src s n).length = n := length_slice hs0
    have hrun : d + (slice src s n).length ≤ dst.length := by rw [hlen]; exact hd0
    rw [List.zip_cons_cons, copyRuns, ih (Nat.succ.inj hl) hs
      (by simpa only [length_splice hrun] using hd), splice_eq_scatter hrun, hlen,
      List.flatMap_cons, List.flatMap_cons, gather_append, gather_range',
      scatter_append _ (by rw [List.length_range', hlen])]

variable {dims pos counts : List Nat}

theorem extract_eq_ok {src out : List α} : extract src dims pos counts = .ok out ↔
    count? dims = some src.length ∧ dims ≠ [] ∧ Within dims pos counts ∧
      out = gather src (addresses dims pos counts) := by
  simp only [extract, Checked.bind_eq_ok, Checked.exists_unit, expectVolume_eq_ok,
    expectPart_eq_ok, cellCount_eq_ok, Checked.pure_eq_ok, and_assoc]
  apply and_congr_right
  intro hv
  apply and_congr_right
  intro hd
  apply and_congr_right
  intro hw
  have hruns : (starts dims pos counts).flatMap (fun s => slice src s (run counts)) =
      gather src (addresses dims pos counts) := by
    rw [addresses_eq_runs hw, gather_flatMap]
    simp only [gather_range']
  rw [hruns]
  constructor
  · rintro ⟨_, -, rfl⟩
    rfl
  · rintro rfl
    exact ⟨_, exists_count? hw.counts_le hv, rfl⟩

theorem copy_eq_ok {src dst out : List α} {dims' pos' : List Nat} :
    copy src dims pos dst dims' pos' counts = .ok out ↔
      count? dims = some src.length ∧ count? dims' = some dst.length ∧
        (dims ≠ [] ∧ Within dims pos counts) ∧ (dims' ≠ [] ∧ Within dims' pos' counts) ∧
          out = scatter dst (addresses dims' pos' counts)
            (gather src (addresses dims pos counts)) := by
  simp only [copy, Checked.bind_eq_ok, Checked.exists_unit, expectVolume_eq_ok, expectPart_eq_ok,
    Checked.pure_eq_ok]
  apply and_congr_right
  intro hv
  apply and_congr_right
  intro hv'
  apply and_congr_right
  intro hw
  apply and_congr_right
  intro hw'
  have hs := starts_le hw.2
  have hd := starts_le hw'.2
  rw [← count?_eq_some hv] at hs
  rw [← count?_eq_some hv'] at hd
  rw [copyRuns_eq (length_starts hw.2 hw'.2) hs hd, ← addresses_eq_runs hw.2,
    ← addresses_eq_runs hw'.2, eq_comm]

end TypedWire.Region
