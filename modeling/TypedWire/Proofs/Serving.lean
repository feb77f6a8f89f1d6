import TypedWire.Proofs.RemoteBlock
import TypedWire.Proofs.RemoteFlat

namespace TypedWire

open Region

variable {σ α : Type}

def Request.Names (q : Request) (axes : List Nat) : Prop := axes ≠ [] ∧ Within axes q.pos q.count

namespace Link

/-- How the owner of a region with these axes and items answers in one state; `decode` gives the
shape and the items that an element stands for. -/
structure Guarded (l : Link σ) (axes : σ → List Nat) (items : σ → List α)
    (decode : Element → Checked (List Nat × List α)) (s : σ) : Prop where
  dimensions : l.dimensions s = .ok (axes s) s
  read_ok : ∀ q, q.Names (axes s) → ∃ e, l.read q s = .ok e s ∧
    decode e = .ok (q.count, gather (items s) (addresses (axes s) q.pos q.count))
  read_error : ∀ q, ¬q.Names (axes s) → ∃ err, l.read q s = .error err s
  write_ok : ∀ q e values, q.Names (axes s) → decode e = .ok (q.count, values) →
    ∃ s', l.write q e s = .ok () s' ∧ axes s' = axes s ∧
      SameOutside (addresses (axes s) q.pos q.count) (items s) (items s') ∧
      gather (items s') (addresses (axes s) q.pos q.count) = values
  write_error : ∀ q e, ¬(q.Names (axes s) ∧ ∃ values, decode e = .ok (q.count, values)) →
    ∃ err, l.write q e s = .error err s

/-- The states that requests can bring the owner of a region to, whatever comes of each. -/
inductive Reachable (l : Link σ) (s : σ) : σ → Prop
  | start : Reachable l s s
  | dimensions {t} : Reachable l s t → Reachable l s (l.dimensions.outcome t).2
  | read {t} (q) : Reachable l s t → Reachable l s ((l.read q).outcome t).2
  | write {t} (q e) : Reachable l s t → Reachable l s ((l.write q e).outcome t).2

section Guarded

variable {l : Link σ} {axes : σ → List Nat} {items : σ → List α}
  {decode : Element → Checked (List Nat × List α)} {s t : σ}

theorem Guarded.state_dimensions (h : l.Guarded axes items decode s) :
    (l.dimensions.outcome s).2 = s := by
  rw [Action.outcome, h.dimensions]

theorem Guarded.state_read (h : l.Guarded axes items decode s) (q : Request) :
    ((l.read q).outcome s).2 = s := by
  by_cases hq : q.Names (axes s)
  · obtain ⟨e, he, -⟩ := h.read_ok q hq
    rw [Action.outcome, he]
  · obtain ⟨err, herr⟩ := h.read_error q hq
    rw [Action.outcome, herr]

theorem Guarded.shape_write (h : l.Guarded axes items decode s) (q : Request) (e : Element) :
    axes ((l.write q e).outcome s).2 = axes s ∧
      (items ((l.write q e).outcome s).2).length = (items s).length := by
  by_cases hq : q.Names (axes s) ∧ ∃ values, decode e = .ok (q.count, values)
  · obtain ⟨hq, values, hvalues⟩ := hq
    obtain ⟨s', hs', haxes, hsame, -⟩ := h.write_ok q e values hq hvalues
    rw [Action.outcome, hs']
    exact ⟨haxes, hsame.length_eq⟩
  · obtain ⟨err, herr⟩ := h.write_error q e hq
    rw [Action.outcome, herr]
    exact ⟨rfl, rfl⟩

theorem Reachable.shape (h : l.Reachable s t)
    (hguarded : ∀ t, axes t = axes s → (items t).length = (items s).length →
      l.Guarded axes items decode t) :
    axes t = axes s ∧ (items t).length = (items s).length := by
  induction h with
  | start => exact ⟨rfl, rfl⟩
  | dimensions _ ih => rwa [(hguarded _ ih.1 ih.2).state_dimensions]
  | read q _ ih => rwa [(hguarded _ ih.1 ih.2).state_read q]
  | write q e _ ih =>
    obtain ⟨haxes, hlen⟩ := (hguarded _ ih.1 ih.2).shape_write q e
    exact ⟨haxes.trans ih.1, hlen.trans ih.2⟩

end Guarded

theorem ofChecked_refused {r : Checked α} {s : σ} (h : ∀ x, r ≠ .ok x) :
    ∃ err, (Action.ofChecked r : Action σ α) s = .error err s := by
  cases r with
  | ok x => exact absurd rfl (h x)
  | error err => exact ⟨err, rfl⟩

theorem along_eq_ok {f : σ → Checked σ} {s s' : σ} :
    Action.along f s = .ok () s' ↔ f s = .ok s' := by
  rw [Action.along]
  cases f s with
  | ok t => simp
  | error err => simp

theorem along_refused {f : σ → Checked σ} {s : σ} (h : ∀ s', f s ≠ .ok s') :
    ∃ err, Action.along f s = .error err s := by
  cases hf : f s with
  | ok s' => exact absurd hf (h s')
  | error err => exact ⟨err, by rw [Action.along, hf]⟩

section Flat

variable {codec : ItemCodec α} {region : List α} {q : Request} {e : Element}

theorem span_eq_ok {pos n : Nat} : q.span = .ok (pos, n) ↔ q = .flat pos n := by
  obtain ⟨ps, cs⟩ := q
  rcases ps with _ | ⟨a, _ | ⟨b, ps⟩⟩ <;> rcases cs with _ | ⟨c, _ | ⟨d, cs⟩⟩ <;>
    simp [Request.span, Request.flat]

theorem names_flat {len : Nat} : q.Names [len] ↔ ∃ pos n, q = .flat pos n ∧ pos + n ≤ len := by
  constructor
  · rintro ⟨-, hq⟩
    obtain ⟨ps, cs⟩ := q
    cases hq with
    | cons h hnil =>
      cases hnil
      exact ⟨_, _, rfl, h⟩
  · rintro ⟨pos, n, rfl, h⟩
    exact ⟨nofun, .cons h .nil⟩

def decodeFlat (codec : ItemCodec α) (e : Element) : Checked (List Nat × List α) := do
  let values ← codec.unpackFlat e
  return ([values.length], values)

theorem decodeFlat_eq_ok {shape : List Nat} {values : List α} :
    decodeFlat codec e = .ok (shape, values) ↔
      codec.unpackFlat e = .ok values ∧ [values.length] = shape := by
  simp only [decodeFlat, Checked.bind_eq_ok, Checked.pure_eq_ok, Prod.mk.injEq]
  constructor
  · rintro ⟨xs, hxs, hshape, rfl⟩
    exact ⟨hxs, hshape⟩
  · rintro ⟨hxs, hshape⟩
    exact ⟨values, hxs, hshape, rfl⟩

def repliedFlat (codec : ItemCodec α) (region : List α) (q : Request) : Checked Element := do
  let (pos, n) ← q.span
  codec.packFlat (← Region.readFlat region pos n)

def writtenFlat (codec : ItemCodec α) (q : Request) (e : Element) (region : List α) :
    Checked (List α) := do
  let (pos, n) ← q.span
  let values ← codec.unpackFlat e
  if values.length ≠ n then .error (.lengthMismatch n values.length)
  else Region.writeFlat region pos values

theorem serveFlat_write_eq : (serveFlat codec).write q e = .along (writtenFlat codec q e) := by
  funext region
  rw [Action.along]
  change (Action.ofChecked (writtenFlat codec q e region) >>= set) region = _
  cases writtenFlat codec q e region <;> rfl

theorem repliedFlat_eq_ok : repliedFlat codec region q = .ok e ↔
    ∃ pos n, q = .flat pos n ∧ pos + n ≤ region.length ∧
      codec.packFlat (slice region pos n) = .ok e := by
  simp only [repliedFlat, Region.readFlat, Checked.bind_eq_ok, Checked.exists_unit, Prod.exists,
    span_eq_ok, expectSpan_eq_ok, Checked.pure_eq_ok]
  constructor
  · rintro ⟨pos, n, rfl, _, ⟨hroom, rfl⟩, he⟩
    exact ⟨pos, n, rfl, hroom, he⟩
  · rintro ⟨pos, n, rfl, hroom, he⟩
    exact ⟨pos, n, rfl, _, ⟨hroom, rfl⟩, he⟩

theorem writtenFlat_eq_ok {region' : List α} : writtenFlat codec q e region = .ok region' ↔
    ∃ pos values, q = .flat pos values.length ∧ codec.unpackFlat e = .ok values ∧
      pos + values.length ≤ region.length ∧ splice region pos values = region' := by
  simp only [writtenFlat, Region.writeFlat, Checked.bind_eq_ok, Checked.exists_unit, Prod.exists,
    span_eq_ok, Checked.refuse_eq_ok, not_not, expectSpan_eq_ok, Checked.pure_eq_ok]
  constructor
  · rintro ⟨pos, _, rfl, values, hvalues, rfl, hroom, rfl⟩
    exact ⟨pos, values, rfl, hvalues, hroom, rfl⟩
  · rintro ⟨pos, values, rfl, hvalues, hroom, rfl⟩
    exact ⟨pos, _, rfl, values, hvalues, rfl, hroom, rfl⟩

theorem guarded_flat (hf : codec.Faithful fun _ => True)
    (hpack : ∀ xs, ∃ e, codec.packFlat xs = .ok e) (region : List α) :
    (serveFlat codec).Guarded (fun r => [r.length]) id (decodeFlat codec) region where
  dimensions := rfl
  read_ok q hq := by
    obtain ⟨pos, n, rfl, hroom⟩ := names_flat.mp hq
    obtain ⟨e, he⟩ := hpack (slice region pos n)
    have hback : codec.unpackFlat e = .ok (slice region pos n) := hf.flat (fun _ _ => trivial) he
    refine ⟨e, ?_, decodeFlat_eq_ok.mpr ⟨?_, ?_⟩⟩
    · exact Action.ofChecked_ok (repliedFlat_eq_ok.mpr ⟨pos, n, rfl, hroom, he⟩)
    · simp only [Request.flat, addresses_flat, gather_range', id, hback]
    · simp only [Request.flat, addresses_flat, gather_range', id, length_slice hroom]
  read_error q hq := by
    refine ofChecked_refused (r := repliedFlat codec region q) fun e he => hq ?_
    obtain ⟨pos, n, hq, hroom, -⟩ := repliedFlat_eq_ok.mp he
    exact names_flat.mpr ⟨pos, n, hq, hroom⟩
  write_ok q e values hq he := by
    obtain ⟨pos, n, rfl, hroom⟩ := names_flat.mp hq
    obtain ⟨hvalues, hshape⟩ := decodeFlat_eq_ok.mp he
    cases hshape
    rw [serveFlat_write_eq]
    refine ⟨splice region pos values, along_eq_ok.mpr (writtenFlat_eq_ok.mpr
      ⟨pos, values, rfl, hvalues, hroom, rfl⟩), ?_, ?_, ?_⟩
    · rw [length_splice hroom]
    · rw [splice_eq_scatter hroom]
      simp only [Request.flat, addresses_flat]
      exact (SameOutside.refl _ _).scatter (fun _ h => h) values
    · simp only [Request.flat, addresses_flat, gather_range']
      exact slice_splice hroom
  write_error q e hq := by
    rw [serveFlat_write_eq]
    refine along_refused fun region' hregion' => hq ?_
    obtain ⟨pos, values, rfl, hvalues, hroom, -⟩ := writtenFlat_eq_ok.mp hregion'
    exact ⟨names_flat.mpr ⟨pos, _, rfl, hroom⟩, values, decodeFlat_eq_ok.mpr ⟨hvalues, rfl⟩⟩

end Flat

section Blocks

variable {codec : ItemCodec α} {region : Block α} {q : Request} {e : Element}

def decodeBlock (codec : ItemCodec α) (e : Element) : Checked (List Nat × List α) := do
  let values ← codec.unpackBlock e
  return (values.axes, values.items)

theorem decodeBlock_eq_ok {shape : List Nat} {items : List α} :
    decodeBlock codec e = .ok (shape, items) ↔ ∃ values : Block α,
      codec.unpackBlock e = .ok values ∧ values.axes = shape ∧ values.items = items := by
  simp only [decodeBlock, Checked.bind_eq_ok, Checked.pure_eq_ok, Prod.mk.injEq]

def repliedBlock (codec : ItemCodec α) (region : Block α) (q : Request) : Checked Element := do
  codec.packBlock (← Region.readBlock region q.pos q.count)

def writtenBlock (codec : ItemCodec α) (q : Request) (e : Element) (region : Block α) :
    Checked (Block α) := do
  let values ← codec.unpackBlock e
  if values.axes ≠ q.count then .error (.dimensionMismatch q.count values.axes)
  else Region.writeBlock region q.pos values

theorem serveBlock_write_eq :
    (serveBlock codec).write q e = .along (writtenBlock codec q e) := by
  funext region
  rw [Action.along]
  change (Action.ofChecked (writtenBlock codec q e region) >>= set) region = _
  cases writtenBlock codec q e region <;> rfl

theorem repliedBlock_eq_ok (hr : region.WellFormed) : repliedBlock codec region q = .ok e ↔
    region.Fits q.pos q.count ∧ codec.packBlock (region.part q.pos q.count) = .ok e := by
  simp only [repliedBlock, Checked.bind_eq_ok]
  constructor
  · rintro ⟨b, hb, he⟩
    have hfits : region.Fits q.pos q.count := by
      simp only [Region.readBlock, Checked.bind_eq_ok, extract_eq_ok] at hb
      obtain ⟨-, ⟨-, hne, hwithin, -⟩, -⟩ := hb
      exact ⟨hne, hwithin⟩
    cases (readBlock_part hr hfits).symm.trans hb
    exact ⟨hfits, he⟩
  · rintro ⟨hfits, he⟩
    exact ⟨_, readBlock_part hr hfits, he⟩

theorem writtenBlock_eq_ok (hr : region.WellFormed) {region' : Block α} :
    writtenBlock codec q e region = .ok region' ↔ ∃ values : Block α,
      codec.unpackBlock e = .ok values ∧ values.WellFormed ∧ values.axes = q.count ∧
        region.Fits q.pos q.count ∧ region' = ⟨region.dims,
          scatter region.items (addresses region.axes q.pos q.count) values.items⟩ := by
  simp only [writtenBlock, Region.writeBlock, Checked.bind_eq_ok, Checked.refuse_eq_ok, not_not,
    Checked.pure_eq_ok, copy_eq_ok, Block.wellFormed_iff]
  constructor
  · rintro ⟨values, hvalues, haxes, items, ⟨hcount, -, -, hfits, rfl⟩, rfl⟩
    rw [gather_origin hcount]
    rw [haxes] at hfits ⊢
    exact ⟨values, hvalues, haxes ▸ hcount, haxes, hfits, rfl⟩
  · rintro ⟨values, hvalues, hcount, haxes, hfits, rfl⟩
    have hne : values.axes ≠ [] := by
      rw [haxes]
      rintro hnil
      exact hfits.1 (List.length_eq_zero_iff.mp (hfits.2.length_counts ▸ hnil ▸ rfl))
    refine ⟨values, hvalues, haxes, _, ⟨hcount, Block.wellFormed_iff.mp hr,
      ⟨hne, .origin values.axes⟩, haxes ▸ hfits, rfl⟩, ?_⟩
    rw [gather_origin hcount, haxes]

theorem guarded_block (hf : codec.Faithful fun _ => True)
    (hpack : ∀ b : Block α, b.WellFormed → ∃ e, codec.packBlock b = .ok e)
    (hunpack : ∀ e b, codec.unpackBlock e = .ok b → b.WellFormed) (hr : region.WellFormed) :
    (serveBlock codec).Guarded Block.axes Block.items (decodeBlock codec) region where
  dimensions := rfl
  read_ok q hq := by
    obtain ⟨e, he⟩ := hpack _ (Block.wellFormed_part hr hq)
    have hback := hf.block (Block.wellFormed_part hr hq) (fun _ _ => trivial) he
    refine ⟨e, ?_, decodeBlock_eq_ok.mpr ⟨_, hback, Block.axes_part hq, rfl⟩⟩
    exact Action.ofChecked_ok ((repliedBlock_eq_ok hr).mpr ⟨hq, he⟩)
  read_error q hq := by
    refine ofChecked_refused (r := repliedBlock codec region q) fun e he => hq ?_
    exact ((repliedBlock_eq_ok hr).mp he).1
  write_ok q e items hq he := by
    obtain ⟨values, hvalues, haxes, rfl⟩ := decodeBlock_eq_ok.mp he
    have hwf := hunpack e values hvalues
    have hlt : ∀ a ∈ addresses region.axes q.pos q.count, a < region.items.length := by
      rw [hr.length_items]
      exact addresses_lt hq.2
    rw [serveBlock_write_eq]
    have hwritten := (writtenBlock_eq_ok hr).mpr ⟨values, hvalues, hwf, haxes, hq, rfl⟩
    refine ⟨_, along_eq_ok.mpr hwritten, rfl, (SameOutside.refl _ _).scatter (fun _ h => h) _, ?_⟩
    refine gather_scatter (nodup_addresses hq.2) hlt ?_
    rw [length_addresses hq.2, hwf.length_items, haxes]
  write_error q e hq := by
    rw [serveBlock_write_eq]
    refine along_refused fun region' hregion' => hq ?_
    obtain ⟨values, hvalues, -, haxes, hfits, -⟩ := (writtenBlock_eq_ok hr).mp hregion'
    exact ⟨hfits, values.items, decodeBlock_eq_ok.mpr ⟨values, hvalues, haxes, rfl⟩⟩

end Blocks

theorem wellFormed_of_unpackBlock {Γ : Scope} {k : NumericKind} {e : Element} {b : Block (Item k)}
    (h : (ItemCodec.numeric Γ k).unpackBlock e = .ok b) : b.WellFormed := by
  obtain ⟨v, -, hv⟩ := Checked.bind_eq_ok.mp h
  cases v with
  | block k' a =>
    obtain ⟨items, -, hmake⟩ := Checked.bind_eq_ok.mp hv
    exact (Block.make_eq_ok_iff.mp hmake).2
  | _ => cases hv

/-- The owner of a region of numbers answers any sequence of requests, of whatever rank and bounds
and with whatever elements, without its region ever losing its shape: each request that names a part
of the region is carried out in that part, and every other is refused without effect. -/
theorem served_guarded (Γ : Scope) (k : NumericKind) :
    (∀ region region' : List (Item k), (serveFlat (.numeric Γ k)).Reachable region region' →
      region'.length = region.length ∧ (serveFlat (.numeric Γ k)).Guarded (fun r => [r.length]) id
        (decodeFlat (.numeric Γ k)) region') ∧
    ∀ region region' : Block (Item k), region.WellFormed →
      (serveBlock (.numeric Γ k)).Reachable region region' →
      region'.axes = region.axes ∧ region'.items.length = region.items.length ∧
        (serveBlock (.numeric Γ k)).Guarded Block.axes Block.items
          (decodeBlock (.numeric Γ k)) region' := by
  have hfaithful := ItemCodec.faithful_numeric (Γ := Γ) k
  constructor
  · intro region region' h
    have hguarded := guarded_flat hfaithful (ItemCodec.exists_packFlat_numeric k)
    exact ⟨(h.shape fun t _ _ => hguarded t).2, hguarded region'⟩
  · intro region region' hr h
    have hguarded : ∀ t : Block (Item k), t.axes = region.axes →
        t.items.length = region.items.length → (serveBlock (.numeric Γ k)).Guarded Block.axes
          Block.items (decodeBlock (.numeric Γ k)) t := by
      intro t haxes hlen
      refine guarded_block hfaithful (fun _ => ItemCodec.exists_packBlock_numeric)
        (fun _ _ => wellFormed_of_unpackBlock) ?_
      rw [Block.wellFormed_iff, haxes, hlen]
      exact Block.wellFormed_iff.mp hr
    obtain ⟨haxes, hlen⟩ := h.shape hguarded
    exact ⟨haxes, hlen, hguarded region' haxes hlen⟩

theorem served_guarded_numbers :
    let flat : Link (List (Item .int32)) := serveFlat (.numeric (.ofRegistry .empty) .int32)
    let block : Link (Block (Item .int32)) := serveBlock (.numeric (.ofRegistry .empty) .int32)
    let region := [.ofInt32 0, .ofInt32 7, .ofInt32 8]
    let grid := ⟨[2, 2], List.replicate 4 (.ofInt32 0)⟩
    (flat.write (.flat 1 2) (.ofArray chunkId ⟨.int32, [.ofInt32 7, .ofInt32 8]⟩)
        (List.replicate 3 (.ofInt32 0)) = .ok () region ∧
      ∃ err, flat.read (.flat (wordBound - 1) 2) region = .error err region) ∧
    ∃ err, block.read (.flat 0 1) grid = .error err grid := by
  intro flat block region grid
  have hwritten : flat.write (.flat 1 2) (.ofArray chunkId ⟨.int32, [.ofInt32 7, .ofInt32 8]⟩)
      (List.replicate 3 (.ofInt32 0)) = .ok () region := rfl
  have hreached : flat.Reachable (List.replicate 3 (.ofInt32 0)) region :=
    .write (.flat 1 2) (.ofArray chunkId ⟨.int32, [.ofInt32 7, .ofInt32 8]⟩) .start
  refine ⟨⟨hwritten, ?_⟩, ?_⟩
  · refine ((served_guarded (.ofRegistry .empty) .int32).1 _ region hreached).2.read_error _ ?_
    intro hq
    obtain ⟨_, _, hflat, hroom⟩ := names_flat.mp hq
    cases hflat
    exact absurd hroom (by decide)
  · refine ((served_guarded (.ofRegistry .empty) .int32).2 grid grid rfl .start).2.2.read_error _ ?_
    exact fun hq => absurd hq.2.length_pos (by decide)

end Link

end TypedWire
