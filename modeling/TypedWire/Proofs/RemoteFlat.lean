import TypedWire.Proofs.Codecs
import TypedWire.Proofs.Pasting
import TypedWire.Proofs.Taps

namespace TypedWire

variable {σ α : Type}

def Action.along (f : σ → Checked σ) : Action σ Unit := fun s =>
  match f s with
  | .ok s' => .ok () s'
  | .error e => .error e s

/-- Requests for `n` items from `pos` on, `m` items apart. -/
def Request.Steps (m pos n : Nat) (qs : List Request) : Prop :=
  ∃ counts : List Nat, (∀ c ∈ counts, 0 < c ∧ c ≤ m) ∧ counts.sum = n ∧
    qs = counts.mapIdx fun i c => .flat (pos + i * m) c

/-- What the tap has seen of a transfer with this result: requests for all of it, or nothing. -/
def Tap.Saw (t : Tap σ) (access : Access) (m pos n : Nat) : Checked Unit → Prop
  | .ok () => ∃ qs, t.log = qs.map (access, ·) ∧ Request.Steps m pos n qs
  | .error _ => t.log = []

theorem Request.steps_chunks {m : Nat} (hm : 0 < m) (pos n : Nat) :
    Steps m pos n ((FlatPlan.make pos n m).chunks.map fun c => flat c.pos c.count) := by
  have hmax : Nat.max m 1 = m := Nat.max_eq_left hm
  have hpos : ∀ c ∈ (FlatPlan.make pos n m).chunks, c.pos = pos + c.offset :=
    FlatPlan.pos_of_mem_chunks pos n m
  refine ⟨(FlatPlan.make pos n m).chunks.map (·.count), ?_, FlatPlan.sum_chunks pos n m, ?_⟩
  · intro c hc
    obtain ⟨x, hx, rfl⟩ := List.mem_map.mp hc
    rw [FlatPlan.chunks_eq, hmax] at hx
    obtain ⟨i, hi, rfl⟩ := List.mem_map.mp hx
    have hleft := (lt_ceilDiv_iff hm).mp (List.mem_range.mp hi)
    simp only [FlatPlan.chunk]
    omega
  · rw [List.map_congr_left fun c hc => by rw [hpos c hc], FlatPlan.chunks_eq, hmax]
    apply List.ext_getElem
    · simp
    · intro i _ _
      simp [FlatPlan.chunk]

namespace Region

variable {region buffer : List α} {pos start n : Nat}

def loading (pos start n : Nat) : Action (List α × List α) Unit :=
  .along fun s => return (s.1, ← loadFlat s.1 pos s.2 start n)

def storing (pos : Nat) (buffer : List α) (start n : Nat) : Action (List α) Unit :=
  .along fun region => storeFlat region pos buffer start n

theorem loadFlat_eq : loadFlat region pos buffer start n =
    (Proxy.expectRoom [region.length] pos buffer.length start n).map fun _ =>
      splice buffer start (slice region pos n) := by
  simp only [loadFlat, readFlat, Proxy.expectRoom, onlyAxis]
  cases expectSpan "buffer" buffer.length start n with
  | error => rfl
  | ok =>
    cases h : expectSpan "region" region.length pos n <;>
      simp only [bind, Except.bind, Except.map, pure, Except.pure, h]

theorem storeFlat_eq : storeFlat region pos buffer start n =
    (Proxy.expectRoom [region.length] pos buffer.length start n).map fun _ =>
      splice region pos (slice buffer start n) := by
  simp only [storeFlat, writeFlat, Proxy.expectRoom, onlyAxis]
  cases hb : expectSpan "buffer" buffer.length start n with
  | error => rfl
  | ok =>
    rw [length_slice (expectSpan_eq_ok.mp hb)]
    cases h : expectSpan "region" region.length pos n <;>
      simp only [bind, Except.bind, Except.map, pure, Except.pure, h]

end Region

open Region

variable {Γ : Scope} {codec : ItemCodec α} {Carries : List α → Prop} {l : Link σ}
  {state : List α → List (Access × Request) → σ} {limit pos start n : Nat}
  {region buffer : List α}

namespace Link

theorem serveFlat_read (hΓ : Γ.Built) (hc : codec.BuiltIn Γ Carries)
    (h : pos + n ≤ region.length) (hcarry : Carries (slice region pos n)) :
    ∃ e, (serveFlat codec).read (.flat pos n) region = .ok e region ∧
      codec.unpackFlat e = .ok (slice region pos n) := by
  obtain ⟨e, he, hback⟩ := hc.losslessFlat hΓ hcarry
  refine ⟨e, ?_, hback⟩
  have hreply : (Region.readFlat region pos n >>= codec.packFlat) = .ok e := by
    simp only [Region.readFlat, Checked.bind_eq_ok, Checked.exists_unit, expectSpan_eq_ok]
    exact ⟨_, ⟨h, rfl⟩, he⟩
  exact Action.ofChecked_ok hreply

theorem serveFlat_write (h : pos + n ≤ region.length) {values : List α}
    (hvalues : values.length = n) {e : Element} (he : codec.unpackFlat e = .ok values) :
    (serveFlat codec).write (.flat pos n) e region = .ok () (splice region pos values) := by
  have hreply : (do
      let values ← codec.unpackFlat e
      if values.length ≠ n then .error (.lengthMismatch n values.length)
      else Region.writeFlat region pos values) = .ok (splice region pos values) := by
    simp only [he, Checked.bind_eq_ok, Checked.refuse_eq_ok, not_not, Region.writeFlat,
      Checked.exists_unit, expectSpan_eq_ok]
    exact ⟨values, rfl, hvalues, hvalues ▸ h, rfl⟩
  exact (Action.bind_ofChecked hreply).trans rfl

end Link

namespace Proxy

def InRequest (pos n : Nat) (c : Chunk Nat) : Prop :=
  c.pos = pos + c.offset ∧ c.offset + c.count ≤ n

variable {c : Chunk Nat} {log : List (Access × Request)}

theorem loadSpan_step (hl : l.Records (.serveFlat codec) state log) (hΓ : Γ.Built)
    (hc : codec.BuiltIn Γ Carries) (hr : pos + n ≤ region.length)
    (hcarry : Carries (slice region (pos + c.offset) c.count)) (hchunk : InRequest pos n c)
    {b : List α} :
    (⟨l, codec, limit⟩ : Proxy σ α).loadSpan start c (state region log, b) =
      .ok () (state region (log ++ [(.read, .flat c.pos c.count)]),
        splice b (start + c.offset) (slice region (pos + c.offset) c.count)) := by
  obtain ⟨hpos, hwithin⟩ := hchunk
  have hroom : c.pos + c.count ≤ region.length := by omega
  obtain ⟨e, he, hback⟩ := Link.serveFlat_read hΓ hc hroom (hpos ▸ hcarry)
  refine loadSpan_run (hl.read he) hback ?_
  rw [placeFlat, if_neg (not_not_intro (length_slice hroom)), hpos]

theorem storeSpan_step (hl : l.Records (.serveFlat codec) state log) (hΓ : Γ.Built)
    (hc : codec.BuiltIn Γ Carries) (hb : start + n ≤ buffer.length)
    (hcarry : Carries (slice buffer (start + c.offset) c.count)) (hchunk : InRequest pos n c)
    {r : List α} (hr : pos + n ≤ r.length) :
    (⟨l, codec, limit⟩ : Proxy σ α).storeSpan buffer start c (state r log) =
        .ok () (state (splice r (pos + c.offset) (slice buffer (start + c.offset) c.count))
          (log ++ [(.write, .flat c.pos c.count)])) ∧
      (splice r (pos + c.offset) (slice buffer (start + c.offset) c.count)).length = r.length := by
  obtain ⟨hpos, hwithin⟩ := hchunk
  have hslice : (slice buffer (start + c.offset) c.count).length = c.count :=
    length_slice (by omega)
  obtain ⟨e, he, hback⟩ := hc.losslessFlat hΓ hcarry
  constructor
  · rw [storeSpan_run he, ← hpos]
    exact hl.write (Link.serveFlat_write (by omega) hslice hback)
  · exact length_splice (by omega)

theorem planFlat_make {size length d : Nat} (hsize : 0 < size) (hlimit : size ≤ limit)
    (hr : pos + n ≤ d) (hb : start + n ≤ length) :
    planFlat limit size pos length start n [d] =
      .ok (FlatPlan.make pos n (limit / size)).chunks :=
  planFlat_eq_ok.mpr ⟨expectRoom_eq_ok.mpr ⟨hb, d, rfl, hr⟩, _,
    itemsPerMessage_eq_ok hsize hlimit, rfl⟩

theorem inRequest_chunks (pos n max : Nat) :
    ∀ c ∈ (FlatPlan.make pos n max).chunks, InRequest pos n c := fun c hc =>
  ⟨FlatPlan.pos_of_mem_chunks pos n max c hc, FlatPlan.chunks_within pos n max c hc⟩

theorem readFlat_recorded (hl : ∀ log, l.Records (.serveFlat codec) state log) (hΓ : Γ.Built)
    (hc : codec.BuiltIn Γ Carries) (hsize : 0 < codec.size) (hlimit : codec.size ≤ limit)
    (hroom : expectRoom [region.length] pos buffer.length start n = .ok ())
    (hcarry : Carries (slice region pos n)) :
    (⟨l, codec, limit⟩ : Proxy σ α).readFlat (fun _ => false) pos start n
        (state region log, buffer) =
      .ok () (state region (log ++ (FlatPlan.make pos n (limit / codec.size)).chunks.map
          fun c => (.read, .flat c.pos c.count)),
        splice buffer start (slice region pos n)) := by
  have hdims : l.dimensions (state region log) = .ok [region.length] (state region log) :=
    (hl log).dimensions rfl
  obtain ⟨hb, _, hd, hr⟩ := expectRoom_eq_ok.mp hroom
  cases hd
  have hchunks := inRequest_chunks pos n (limit / codec.size)
  have hcarried : ∀ c ∈ (FlatPlan.make pos n (limit / codec.size)).chunks,
      Carries (slice region (pos + c.offset) c.count) := fun c hmem =>
    hc.mono (slice_sublist region (hchunks c hmem).2) hcarry
  have hplan := planFlat_eq_ok.mpr ⟨hroom, _, itemsPerMessage_eq_ok hsize hlimit, rfl⟩
  rw [readFlat_planned hdims hplan,
    transfer_run (fun b log => (state region log, b)) (fun c => (.read, .flat c.pos c.count))
      (fun c hmem _ log (_ : True) =>
        ⟨loadSpan_step (hl log) hΓ hc hr (hcarried c hmem) (hchunks c hmem), trivial⟩)
      trivial log 0,
    foldl_splice _ _ hb hr]

theorem writeFlat_recorded (hl : ∀ log, l.Records (.serveFlat codec) state log) (hΓ : Γ.Built)
    (hc : codec.BuiltIn Γ Carries) (hsize : 0 < codec.size) (hlimit : codec.size ≤ limit)
    (hroom : expectRoom [region.length] pos buffer.length start n = .ok ())
    (hcarry : Carries (slice buffer start n)) :
    (⟨l, codec, limit⟩ : Proxy σ α).writeFlat (fun _ => false) pos buffer start n
        (state region log) =
      .ok () (state (splice region pos (slice buffer start n))
        (log ++ (FlatPlan.make pos n (limit / codec.size)).chunks.map
          fun c => (.write, .flat c.pos c.count))) := by
  have hdims : l.dimensions (state region log) = .ok [region.length] (state region log) :=
    (hl log).dimensions rfl
  obtain ⟨hb, _, hd, hr⟩ := expectRoom_eq_ok.mp hroom
  cases hd
  have hchunks := inRequest_chunks pos n (limit / codec.size)
  have hcarried : ∀ c ∈ (FlatPlan.make pos n (limit / codec.size)).chunks,
      Carries (slice buffer (start + c.offset) c.count) := fun c hmem =>
    hc.mono (slice_sublist buffer (hchunks c hmem).2) hcarry
  have hplan := planFlat_eq_ok.mpr ⟨hroom, _, itemsPerMessage_eq_ok hsize hlimit, rfl⟩
  rw [writeFlat_planned hdims hplan,
    transfer_run state (fun c => (.write, .flat c.pos c.count))
      (fun c hmem r log (hlen : r.length = region.length) =>
        (storeSpan_step (hl log) hΓ hc hb (hcarried c hmem) (hchunks c hmem) (hlen ▸ hr)).imp_right
          fun hsame => hsame.trans hlen) rfl log 0,
    foldl_splice _ _ hr hb]

theorem readFlat_of_records (hl : ∀ log, l.Records (.serveFlat codec) state log) (hΓ : Γ.Built)
    (hc : codec.BuiltIn Γ Carries) (hsize : 0 < codec.size) (hlimit : codec.size ≤ limit)
    (hcarry : (loadFlat region pos buffer start n).isOk → Carries (slice region pos n))
    (log : List (Access × Request)) :
    (⟨l, codec, limit⟩ : Proxy σ α).readFlat (fun _ => false) pos start n
        (state region log, buffer) =
      match loadFlat region pos buffer start n with
      | .ok b => .ok () (state region (log ++ (FlatPlan.make pos n (limit / codec.size)).chunks.map
          fun c => (.read, .flat c.pos c.count)), b)
      | .error e => .error e (state region log, buffer) := by
  rw [loadFlat_eq] at hcarry ⊢
  cases hroom : expectRoom [region.length] pos buffer.length start n with
  | ok _ =>
    rw [hroom] at hcarry
    exact readFlat_recorded hl hΓ hc hsize hlimit hroom (hcarry rfl)
  | error e => exact readFlat_refused ((hl log).dimensions rfl) (planFlat_error hroom)

theorem writeFlat_of_records (hl : ∀ log, l.Records (.serveFlat codec) state log) (hΓ : Γ.Built)
    (hc : codec.BuiltIn Γ Carries) (hsize : 0 < codec.size) (hlimit : codec.size ≤ limit)
    (hcarry : (storeFlat region pos buffer start n).isOk → Carries (slice buffer start n))
    (log : List (Access × Request)) :
    (⟨l, codec, limit⟩ : Proxy σ α).writeFlat (fun _ => false) pos buffer start n
        (state region log) =
      match storeFlat region pos buffer start n with
      | .ok r => .ok () (state r (log ++ (FlatPlan.make pos n (limit / codec.size)).chunks.map
          fun c => (.write, .flat c.pos c.count)))
      | .error e => .error e (state region log) := by
  rw [storeFlat_eq] at hcarry ⊢
  cases hroom : expectRoom [region.length] pos buffer.length start n with
  | ok _ =>
    rw [hroom] at hcarry
    exact writeFlat_recorded hl hΓ hc hsize hlimit hroom (hcarry rfl)
  | error e => exact writeFlat_refused ((hl log).dimensions rfl) hroom

def servingFlat (codec : ItemCodec α) (limit : Nat) : Proxy (List α) α :=
  ⟨.serveFlat codec, codec, limit⟩

section Served

variable (hΓ : Γ.Built) (hc : codec.BuiltIn Γ Carries) (hsize : 0 < codec.size)
  (hlimit : codec.size ≤ limit)
include hΓ hc hsize hlimit

theorem readFlat_serving
    (hcarry : (loadFlat region pos buffer start n).isOk → Carries (slice region pos n)) :
    (servingFlat codec limit).readFlat (fun _ => false) pos start n (region, buffer) =
      loading pos start n (region, buffer) := by
  rw [servingFlat,
    readFlat_of_records (Link.records_self _) hΓ hc hsize hlimit hcarry [], loading,
    Action.along]
  cases loadFlat region pos buffer start n <;> rfl

theorem writeFlat_serving
    (hcarry : (storeFlat region pos buffer start n).isOk → Carries (slice buffer start n)) :
    (servingFlat codec limit).writeFlat (fun _ => false) pos buffer start n region =
      storing pos buffer start n region := by
  rw [servingFlat,
    writeFlat_of_records (Link.records_self _) hΓ hc hsize hlimit hcarry [], storing,
    Action.along]
  cases storeFlat region pos buffer start n <;> rfl

theorem readFlat_tapped
    (hcarry : (loadFlat region pos buffer start n).isOk → Carries (slice region pos n)) :
    let read := (servingFlat codec limit).tapped.readFlat (fun _ => false) pos start n
    let r := read.outcome (.make region, buffer)
    (r.1, r.2.1.inner, r.2.2) = (loading pos start n).outcome (region, buffer) ∧
      r.2.1.Saw .read (limit / codec.size) pos n r.1 := by
  have hrun : (servingFlat codec limit).tapped.readFlat (fun _ => false) pos start n
      (.make region, buffer) = _ :=
    readFlat_of_records (Link.records_tap _) hΓ hc hsize hlimit hcarry []
  simp only [Action.outcome, hrun, loading, Action.along, loadFlat_eq]
  cases expectRoom [region.length] pos buffer.length start n with
  | ok u =>
    refine ⟨rfl, _, ?_, Request.steps_chunks (Nat.div_pos hlimit hsize) pos n⟩
    rw [List.map_map]
    rfl
  | error e => exact ⟨rfl, rfl⟩

theorem writeFlat_tapped
    (hcarry : (storeFlat region pos buffer start n).isOk → Carries (slice buffer start n)) :
    let write := (servingFlat codec limit).tapped.writeFlat (fun _ => false) pos buffer start n
    let r := write.outcome (.make region)
    (r.1, r.2.inner) = (storing pos buffer start n).outcome region ∧
      r.2.Saw .write (limit / codec.size) pos n r.1 := by
  have hrun : (servingFlat codec limit).tapped.writeFlat (fun _ => false) pos buffer start n
      (.make region) = _ :=
    writeFlat_of_records (Link.records_tap _) hΓ hc hsize hlimit hcarry []
  simp only [Action.outcome, hrun, storing, Action.along, storeFlat_eq]
  cases expectRoom [region.length] pos buffer.length start n with
  | ok u =>
    refine ⟨rfl, _, ?_, Request.steps_chunks (Nat.div_pos hlimit hsize) pos n⟩
    rw [List.map_map]
    rfl
  | error e => exact ⟨rfl, rfl⟩

end Served

/-- A proxied read or write of a flat region is the read or write of the region itself, with the
same result and the same items left behind. Under a tap it ends the same way, and the requests the
tap has seen step through all of it, or there are none because its bounds are not kept. -/
theorem flat_eq_region (hΓ : Γ.Built) (hc : codec.BuiltIn Γ Carries) (hsize : 0 < codec.size)
    (hlimit : codec.size ≤ limit) :
    (((loadFlat region pos buffer start n).isOk → Carries (slice region pos n)) →
      (servingFlat codec limit).readFlat (fun _ => false) pos start n (region, buffer) =
          loading pos start n (region, buffer) ∧
        let read := (servingFlat codec limit).tapped.readFlat (fun _ => false) pos start n
        let r := read.outcome (.make region, buffer)
        (r.1, r.2.1.inner, r.2.2) = (loading pos start n).outcome (region, buffer) ∧
          r.2.1.Saw .read (limit / codec.size) pos n r.1) ∧
    (((storeFlat region pos buffer start n).isOk → Carries (slice buffer start n)) →
      (servingFlat codec limit).writeFlat (fun _ => false) pos buffer start n region =
          storing pos buffer start n region ∧
        let write := (servingFlat codec limit).tapped.writeFlat (fun _ => false) pos buffer start n
        let r := write.outcome (.make region)
        (r.1, r.2.inner) = (storing pos buffer start n).outcome region ∧
          r.2.Saw .write (limit / codec.size) pos n r.1) := by
  constructor
  · intro hcarry
    exact ⟨readFlat_serving hΓ hc hsize hlimit hcarry,
      readFlat_tapped hΓ hc hsize hlimit hcarry⟩
  · intro hcarry
    exact ⟨writeFlat_serving hΓ hc hsize hlimit hcarry,
      writeFlat_tapped hΓ hc hsize hlimit hcarry⟩

theorem flat_eq_region_points : ∃ codec, ItemCodec.pod Geo.scope "geo.Point" = .ok codec ∧
    let region := [Geo.pointAt 0 0, Geo.pointAt 1 0, Geo.pointAt 2 0, Geo.pointAt 3 0,
      Geo.pointAt 4 0]
    let buffer := [Geo.pointAt 7 7, Geo.pointAt 8 8, Geo.pointAt 9 9, Geo.pointAt 0 9]
    (servingFlat codec 9).readFlat (fun _ => false) 2 1 3 (region, buffer) =
      .ok () (region, [Geo.pointAt 7 7, Geo.pointAt 2 0, Geo.pointAt 3 0, Geo.pointAt 4 0]) := by
  refine ⟨_, rfl, ((flat_eq_region Geo.scope_built
    (.pod (t := "geo.Point") (p := Geo.point) rfl rfl) (by decide) (by decide)).1
      fun _ => ⟨by decide, ?_⟩).1.trans rfl⟩
  have hrs : ∀ r ∈ [Geo.pointAt 2 0, Geo.pointAt 3 0, Geo.pointAt 4 0],
      Geo.point.Accepts Geo.scope r := by
    simp [Geo.point_accepts]
  exact hrs

end Proxy

end TypedWire
