import TypedWire.Proofs.Codecs
import TypedWire.Proofs.Pasting
import TypedWire.Proofs.Taps

namespace TypedWire

variable {σ α : Type} {Γ : Scope} {codec : ItemCodec α} {Carries : List α → Prop}
  {region buffer : Block α} {pos start counts : List Nat}

open Block

namespace Link

theorem serveBlock_read (hΓ : Γ.Built) (hc : codec.BuiltIn Γ Carries) (hr : region.WellFormed)
    (hf : region.Fits pos counts) (hcarry : Carries (region.part pos counts).items) :
    ∃ e, (serveBlock codec).read ⟨pos, counts⟩ region = .ok e region ∧
      codec.unpackBlock e = .ok (region.part pos counts) := by
  obtain ⟨e, he, hback⟩ := hc.lossless hΓ (wellFormed_part hr hf) hcarry
  refine ⟨e, ?_, hback⟩
  have hreply : (Region.readBlock region pos counts >>= codec.packBlock) = .ok e :=
    Checked.bind_eq_ok.mpr ⟨_, Region.readBlock_part hr hf, he⟩
  exact Action.ofChecked_ok hreply

theorem serveBlock_write (hr : region.WellFormed) (hb : buffer.WellFormed)
    (hf : region.Fits pos counts) (hf' : buffer.Fits start counts) {e : Element}
    (he : codec.unpackBlock e = .ok (buffer.part start counts)) :
    (serveBlock codec).write ⟨pos, counts⟩ e region =
      .ok () (region.paste pos buffer start counts) := by
  have haxes := axes_part hf'
  have hreply : (do
      let values ← codec.unpackBlock e
      if values.axes ≠ counts then .error (.dimensionMismatch counts values.axes)
      else Region.writeBlock region pos values) = .ok (region.paste pos buffer start counts) := by
    simp only [he, Checked.bind_eq_ok, Checked.refuse_eq_ok, not_not]
    exact ⟨_, rfl, haxes, Region.writeBlock_part hb hr hf' hf⟩
  exact (Action.bind_ofChecked hreply).trans rfl

end Link

namespace Proxy

theorem placeBlock_part {c : Chunk (List Nat)} (hr : region.WellFormed) (hb : buffer.WellFormed)
    (hf : region.Fits pos c.count) (hf' : buffer.Fits (chunkStart start c) c.count) :
    placeBlock buffer start c (region.part pos c.count) =
      .ok (buffer.paste (chunkStart start c) region pos c.count) := by
  have haxes := axes_part hf
  rw [placeBlock, if_neg (not_not_intro haxes)]
  have hwrite := Region.writeBlock_part hr hb hf hf'
  rw [Region.writeBlock, haxes] at hwrite
  rw [haxes]
  exact hwrite

theorem fits_of_planBlock {max : Nat} {cs : List (Chunk (List Nat))}
    (h : planBlock region.axes buffer pos start counts max = .ok cs) :
    region.Fits pos counts ∧ buffer.Fits start counts := by
  obtain ⟨hbuffer, hregion, -⟩ := planBlock_eq_ok.mp h
  exact ⟨hregion, hbuffer⟩

theorem exists_planBlock (hr : region.WellFormed) (hf : region.Fits pos counts)
    (hf' : buffer.Fits start counts) (max : Nat) :
    ∃ cs, planBlock region.axes buffer pos start counts max = .ok cs ∧
      BlockPlan.Tiles pos counts cs := by
  obtain ⟨cs, hcs, htiles⟩ := BlockPlan.exists_make hf.2
    (fun d hd => Nat.lt_trans (region.lt_of_mem_axes d hd) (by decide)) (wellFormed_iff.mp hr) max
  exact ⟨cs, planBlock_eq_ok.mpr ⟨hf', hf, hcs⟩, htiles⟩

def serving (codec : ItemCodec α) (limit : Nat) : Proxy (Block α) α :=
  ⟨.serveBlock codec, codec, limit⟩

def never (_ : Block α) : Bool := false

variable {limit : Nat} {c : Chunk (List Nat)}

section Recorded

variable {l : Link σ} {state : Block α → List (Access × Request) → σ}
  {log : List (Access × Request)}

theorem loadChunk_ok (hl : l.Records (.serveBlock codec) state log) (hΓ : Γ.Built)
    (hc : codec.BuiltIn Γ Carries) (hr : region.WellFormed) (hb : buffer.WellFormed)
    (hf : region.Fits c.pos c.count) (hf' : buffer.Fits (chunkStart start c) c.count)
    (hcarry : Carries (region.part c.pos c.count).items) :
    (⟨l, codec, limit⟩ : Proxy σ α).loadChunk start c (state region log, buffer) =
      .ok () (state region (log ++ [(.read, ⟨c.pos, c.count⟩)]),
        buffer.paste (chunkStart start c) region c.pos c.count) := by
  obtain ⟨e, he, hback⟩ := Link.serveBlock_read hΓ hc hr hf hcarry
  exact loadChunk_run (hl.read he) hback (placeBlock_part hr hb hf hf')

theorem storeChunk_ok (hl : l.Records (.serveBlock codec) state log) (hΓ : Γ.Built)
    (hc : codec.BuiltIn Γ Carries) (hr : region.WellFormed) (hb : buffer.WellFormed)
    (hf : region.Fits c.pos c.count) (hf' : buffer.Fits (chunkStart start c) c.count)
    (hcarry : Carries (buffer.part (chunkStart start c) c.count).items) :
    (⟨l, codec, limit⟩ : Proxy σ α).storeChunk buffer start c (state region log) =
      .ok () (state (region.paste c.pos buffer (chunkStart start c) c.count)
        (log ++ [(.write, ⟨c.pos, c.count⟩)])) := by
  obtain ⟨e, he, hback⟩ := hc.lossless hΓ (wellFormed_part hb hf') hcarry
  rw [storeChunk_run (Region.readBlock_part hb hf') he]
  exact hl.write (Link.serveBlock_write hr hb hf hf' hback)

end Recorded

theorem dimensions_serving :
    (serving codec limit).link.dimensions region = .ok region.axes region := rfl

def Loading (region buffer : Block α) (s : Block α × Block α) : Prop :=
  s.1 = region ∧ s.2.WellFormed ∧ s.2.axes = buffer.axes

def Storing (region : Block α) (r : Block α) : Prop := r.WellFormed ∧ r.axes = region.axes

variable {cs : List (Chunk (List Nat))}

theorem loadChunk_step (hΓ : Γ.Built) (hc : codec.BuiltIn Γ Carries) (hr : region.WellFormed)
    (hf : region.Fits pos counts) (hf' : buffer.Fits start counts)
    (hcarry : Carries (region.part pos counts).items) (htiles : BlockPlan.Tiles pos counts cs)
    (hmem : c ∈ cs) {s : Block α × Block α} (hs : Loading region buffer s) :
    (serving codec limit).loadChunk start c s =
        .ok () (s.1, s.2.paste (chunkStart start c) s.1 c.pos c.count) ∧
      Loading region buffer (s.1, s.2.paste (chunkStart start c) s.1 c.pos c.count) := by
  obtain ⟨r, d⟩ := s
  obtain ⟨hreg, hd, haxes⟩ := hs
  dsimp only at hreg hd haxes
  subst hreg
  have hroom : d.Fits start counts := hf'.of_axes_eq haxes
  have hpart : Fits r c.pos c.count := by
    rw [htiles.pos_eq c hmem]
    exact hf.chunk htiles hmem
  have hcarried : Carries (Block.part r c.pos c.count).items := by
    rw [htiles.pos_eq c hmem]
    exact hc.mono (part_sublist htiles hf hmem) hcarry
  constructor
  · exact loadChunk_ok (Link.records_self _ []) hΓ hc hr hd hpart (hroom.chunk htiles hmem) hcarried
  · exact ⟨rfl, hd.paste, haxes⟩

theorem storeChunk_step (hΓ : Γ.Built) (hc : codec.BuiltIn Γ Carries) (hb : buffer.WellFormed)
    (hf : region.Fits pos counts) (hf' : buffer.Fits start counts)
    (hcarry : Carries (buffer.part start counts).items) (htiles : BlockPlan.Tiles pos counts cs)
    (hmem : c ∈ cs) {r : Block α} (hr : Storing region r) :
    (serving codec limit).storeChunk buffer start c r =
        .ok () (r.paste c.pos buffer (chunkStart start c) c.count) ∧
      Storing region (r.paste c.pos buffer (chunkStart start c) c.count) := by
  obtain ⟨hwf, haxes⟩ := hr
  have hroom : r.Fits pos counts := hf.of_axes_eq haxes
  have hpart : Fits r c.pos c.count := by
    rw [htiles.pos_eq c hmem]
    exact hroom.chunk htiles hmem
  have hcarried := hc.mono (part_sublist htiles hf' hmem) hcarry
  constructor
  · exact storeChunk_ok (Link.records_self _ []) hΓ hc hwf hb hpart (hf'.chunk htiles hmem) hcarried
  · exact ⟨hwf.paste, haxes⟩

theorem readBlock_ok (hΓ : Γ.Built) (hc : codec.BuiltIn Γ Carries) (hsize : 0 < codec.size)
    (hlimit : codec.size ≤ limit) (hr : region.WellFormed) (hb : buffer.WellFormed)
    (hf : region.Fits pos counts) (hf' : buffer.Fits start counts)
    (hcarry : Carries (region.part pos counts).items) :
    (serving codec limit).readBlock never pos start counts (region, buffer) =
      .ok () (region, buffer.paste start region pos counts) := by
  obtain ⟨cs, hcs, htiles⟩ := exists_planBlock hr hf hf' (limit / codec.size)
  have hrun : transfer (fun s => never s.1) (fun c => cellsOf c.count)
      ((serving codec limit).loadChunk start) 0 cs (region, buffer) =
      .ok () (cs.foldl (fun s c => (s.1, s.2.paste (chunkStart start c) s.1 c.pos c.count))
        (region, buffer)) :=
    transfer_ok (fun _ hmem _ => loadChunk_step hΓ hc hr hf hf' hcarry htiles hmem)
      ⟨rfl, hb, rfl⟩ 0
  have hbeside := foldl_beside (fun r (d : Block α) (c : Chunk (List Nat)) =>
    d.paste (chunkStart start c) r c.pos c.count) cs region buffer
  have hpaste : cs.foldl (fun d c => d.paste (chunkStart start c) region c.pos c.count) buffer =
      buffer.paste start region pos counts :=
    foldl_paste htiles hr hf hf' htiles.pos_eq fun _ _ => rfl
  rw [readBlock_planned (itemsPerMessage_eq_ok hsize hlimit) dimensions_serving hcs, hrun,
    hbeside, hpaste]

theorem writeBlock_ok (hΓ : Γ.Built) (hc : codec.BuiltIn Γ Carries) (hsize : 0 < codec.size)
    (hlimit : codec.size ≤ limit) (hr : region.WellFormed) (hb : buffer.WellFormed)
    (hf : region.Fits pos counts) (hf' : buffer.Fits start counts)
    (hcarry : Carries (buffer.part start counts).items) :
    (serving codec limit).writeBlock never pos buffer start counts region =
      .ok () (region.paste pos buffer start counts) := by
  obtain ⟨cs, hcs, htiles⟩ := exists_planBlock hr hf hf' (limit / codec.size)
  have hrun : transfer never (fun c => cellsOf c.count)
      ((serving codec limit).storeChunk buffer start) 0 cs region =
      .ok () (cs.foldl (fun r c => r.paste c.pos buffer (chunkStart start c) c.count) region) :=
    transfer_ok (fun _ hmem _ => storeChunk_step hΓ hc hb hf hf' hcarry htiles hmem) ⟨hr, rfl⟩ 0
  have hpaste : cs.foldl (fun r c => r.paste c.pos buffer (chunkStart start c) c.count) region =
      region.paste pos buffer start counts :=
    foldl_paste htiles hb hf' hf (fun _ _ => rfl) htiles.pos_eq
  rw [writeBlock_planned (itemsPerMessage_eq_ok hsize hlimit) dimensions_serving hcs, hrun, hpaste]

theorem readBlock_error (hsize : 0 < codec.size) (hlimit : codec.size ≤ limit)
    (h : ¬(region.Fits pos counts ∧ buffer.Fits start counts)) :
    ∃ e, (serving codec limit).readBlock never pos start counts (region, buffer) =
      .error e (region, buffer) := by
  cases hcs : planBlock region.axes buffer pos start counts (limit / codec.size) with
  | ok cs => exact absurd (fits_of_planBlock hcs) h
  | error e =>
    exact ⟨e, readBlock_refused (itemsPerMessage_eq_ok hsize hlimit) dimensions_serving hcs⟩

theorem writeBlock_error (hsize : 0 < codec.size) (hlimit : codec.size ≤ limit)
    (h : ¬(region.Fits pos counts ∧ buffer.Fits start counts)) :
    ∃ e, (serving codec limit).writeBlock never pos buffer start counts region =
      .error e region := by
  cases hcs : planBlock region.axes buffer pos start counts (limit / codec.size) with
  | ok cs => exact absurd (fits_of_planBlock hcs) h
  | error e =>
    exact ⟨e, writeBlock_refused (itemsPerMessage_eq_ok hsize hlimit) dimensions_serving hcs⟩

end Proxy

structure Store (ι α : Type) where
  region : Block α
  buffer : ι → Block α

inductive BlockOp (ι : Type)
  | read (b : ι) (pos start counts : List Nat)
  | write (b : ι) (pos start counts : List Nat)
  | limit (n : Nat)

def BlockOp.limitAfter {ι : Type} (limit : Nat) : BlockOp ι → Nat
  | .limit n => n
  | _ => limit

namespace Store

variable {ι : Type} [DecidableEq ι]

structure WellFormed (s : Store ι α) : Prop where
  region : s.region.WellFormed
  buffer : ∀ b, (s.buffer b).WellFormed

def direct (s : Store ι α) : BlockOp ι → Bool × Store ι α
  | .read b pos start counts =>
    match Region.loadBlock s.region pos (s.buffer b) start counts with
    | .ok x => (true, { s with buffer := Function.update s.buffer b x })
    | .error _ => (false, s)
  | .write b pos start counts =>
    match Region.storeBlock s.region pos (s.buffer b) start counts with
    | .ok x => (true, { s with region := x })
    | .error _ => (false, s)
  | .limit _ => (true, s)

def proxied (codec : ItemCodec α) (limit : Nat) (s : Store ι α) : BlockOp ι → Bool × Store ι α
  | .read b pos start counts =>
    let r := ((Proxy.serving codec limit).readBlock Proxy.never pos start counts).outcome
      (s.region, s.buffer b)
    (r.1.isOk, ⟨r.2.1, Function.update s.buffer b r.2.2⟩)
  | .write b pos start counts =>
    let r := ((Proxy.serving codec limit).writeBlock Proxy.never pos (s.buffer b) start
      counts).outcome s.region
    (r.1.isOk, ⟨r.2, s.buffer⟩)
  | .limit _ => (true, s)

def directRun (s : Store ι α) : List (BlockOp ι) → List Bool × Store ι α
  | [] => ([], s)
  | op :: ops =>
    let rest := directRun (s.direct op).2 ops
    ((s.direct op).1 :: rest.1, rest.2)

def proxiedRun (codec : ItemCodec α) (limit : Nat) (s : Store ι α) :
    List (BlockOp ι) → List Bool × Store ι α
  | [] => ([], s)
  | op :: ops =>
    let rest := proxiedRun codec (op.limitAfter limit) (s.proxied codec limit op).2 ops
    ((s.proxied codec limit op).1 :: rest.1, rest.2)

def Carried (Carries : List α → Prop) (s : Store ι α) : BlockOp ι → Prop
  | .read b pos start counts => (s.direct (.read b pos start counts)).1 →
      ∀ x, Region.readBlock s.region pos counts = .ok x → Carries x.items
  | .write b pos start counts => (s.direct (.write b pos start counts)).1 →
      ∀ x, Region.readBlock (s.buffer b) start counts = .ok x → Carries x.items
  | .limit _ => True

def AllCarried (Carries : List α → Prop) (s : Store ι α) : List (BlockOp ι) → Prop
  | [] => True
  | op :: ops => s.Carried Carries op ∧ AllCarried Carries (s.direct op).2 ops

variable {s : Store ι α} {b : ι} {limit : Nat}

theorem direct_read (hs : s.WellFormed) (hf : s.region.Fits pos counts)
    (hf' : (s.buffer b).Fits start counts) : s.direct (.read b pos start counts) =
      (true, { s with
        buffer := Function.update s.buffer b ((s.buffer b).paste start s.region pos counts) }) := by
  simp only [direct, (Region.loadBlock_eq_ok hs.region (hs.buffer b)).mpr ⟨hf, hf', rfl⟩]

theorem direct_read_error (hs : s.WellFormed)
    (h : ¬(s.region.Fits pos counts ∧ (s.buffer b).Fits start counts)) :
    s.direct (.read b pos start counts) = (false, s) := by
  cases hx : Region.loadBlock s.region pos (s.buffer b) start counts with
  | ok x =>
    obtain ⟨hf, hf', -⟩ := (Region.loadBlock_eq_ok hs.region (hs.buffer b)).mp hx
    exact absurd ⟨hf, hf'⟩ h
  | error e => simp only [direct, hx]

theorem direct_write (hs : s.WellFormed) (hf : s.region.Fits pos counts)
    (hf' : (s.buffer b).Fits start counts) : s.direct (.write b pos start counts) =
      (true, { s with region := s.region.paste pos (s.buffer b) start counts }) := by
  simp only [direct, (Region.storeBlock_eq_ok hs.region (hs.buffer b)).mpr ⟨hf', hf, rfl⟩]

theorem direct_write_error (hs : s.WellFormed)
    (h : ¬(s.region.Fits pos counts ∧ (s.buffer b).Fits start counts)) :
    s.direct (.write b pos start counts) = (false, s) := by
  cases hx : Region.storeBlock s.region pos (s.buffer b) start counts with
  | ok x =>
    obtain ⟨hf', hf, -⟩ := (Region.storeBlock_eq_ok hs.region (hs.buffer b)).mp hx
    exact absurd ⟨hf, hf'⟩ h
  | error e => simp only [direct, hx]

theorem WellFormed.direct (hs : s.WellFormed) (op : BlockOp ι) : (s.direct op).2.WellFormed := by
  cases op with
  | read b pos start counts =>
    by_cases h : s.region.Fits pos counts ∧ (s.buffer b).Fits start counts
    · rw [direct_read hs h.1 h.2]
      constructor
      · exact hs.region
      · intro c
        by_cases hc : c = b
        · subst hc
          simpa using (hs.buffer c).paste
        · simpa [hc] using hs.buffer c
    · rw [direct_read_error hs h]
      exact hs
  | write b pos start counts =>
    by_cases h : s.region.Fits pos counts ∧ (s.buffer b).Fits start counts
    · rw [direct_write hs h.1 h.2]
      exact ⟨hs.region.paste, hs.buffer⟩
    · rw [direct_write_error hs h]
      exact hs
  | limit n => exact hs

theorem proxied_eq_direct (hΓ : Γ.Built) (hc : codec.BuiltIn Γ Carries) (hsize : 0 < codec.size)
    (hlimit : codec.size ≤ limit) (hs : s.WellFormed) {op : BlockOp ι}
    (hcarried : s.Carried Carries op) : s.proxied codec limit op = s.direct op := by
  cases op with
  | read b pos start counts =>
    by_cases h : s.region.Fits pos counts ∧ (s.buffer b).Fits start counts
    · have hd := direct_read hs h.1 h.2
      have hcarry := hcarried (by rw [hd]) _ (Region.readBlock_part hs.region h.1)
      have hrun := Proxy.readBlock_ok hΓ hc hsize hlimit hs.region (hs.buffer b) h.1 h.2 hcarry
      rw [hd]
      simp only [proxied, Action.outcome, hrun]
      rfl
    · obtain ⟨e, hrun⟩ := Proxy.readBlock_error hsize hlimit h
      rw [direct_read_error hs h]
      simp only [proxied, Action.outcome, hrun, Function.update_eq_self]
      rfl
  | write b pos start counts =>
    by_cases h : s.region.Fits pos counts ∧ (s.buffer b).Fits start counts
    · have hd := direct_write hs h.1 h.2
      have hcarry := hcarried (by rw [hd]) _ (Region.readBlock_part (hs.buffer b) h.2)
      have hrun := Proxy.writeBlock_ok hΓ hc hsize hlimit hs.region (hs.buffer b) h.1 h.2 hcarry
      rw [hd]
      simp only [proxied, Action.outcome, hrun]
      rfl
    · obtain ⟨e, hrun⟩ := Proxy.writeBlock_error hsize hlimit h
      rw [direct_write_error hs h]
      simp only [proxied, Action.outcome, hrun]
      rfl
  | limit n => rfl

/-- A program of reads, writes and limit changes ends the same way, operation by operation, whether
it works on the region or through a proxy of it. -/
theorem proxiedRun_eq_directRun (hΓ : Γ.Built) (hc : codec.BuiltIn Γ Carries)
    (hsize : 0 < codec.size) (hlimit : codec.size ≤ limit) {ops : List (BlockOp ι)}
    (hlimits : ∀ n, .limit n ∈ ops → codec.size ≤ n) (hs : s.WellFormed)
    (hcarried : s.AllCarried Carries ops) : s.proxiedRun codec limit ops = s.directRun ops := by
  induction ops generalizing s limit with
  | nil => rfl
  | cons op ops ih =>
    obtain ⟨hop, hrest⟩ := hcarried
    have hnext : codec.size ≤ op.limitAfter limit := by
      cases op with
      | limit n => exact hlimits n List.mem_cons_self
      | _ => exact hlimit
    have hlater := ih hnext (fun n hn => hlimits n (List.mem_cons_of_mem _ hn)) (hs.direct op) hrest
    rw [proxiedRun, directRun, proxied_eq_direct hΓ hc hsize hlimit hs hop, hlater]

theorem proxiedRun_eq_directRun_grid : ∃ codec, ItemCodec.pod Geo.scope "geo.Point" = .ok codec ∧
    let grid : Store Unit (Record Value) :=
      ⟨⟨[2, 2], [Geo.pointAt 0 0, Geo.pointAt 1 0, Geo.pointAt 0 1, Geo.pointAt 1 1]⟩,
        fun _ => ⟨[2, 2], [Geo.pointAt 7 7, Geo.pointAt 8 8, Geo.pointAt 9 9, Geo.pointAt 0 9]⟩⟩
    let ops := [.read () [1, 0] [0, 0] [1, 2], .limit 9, .write () [0, 0] [0, 1] [2, 1],
      .read () [2, 0] [0, 0] [1, 1]]
    grid.proxiedRun codec 4 ops = grid.directRun ops := by
  refine ⟨_, rfl, proxiedRun_eq_directRun Geo.scope_built
    (.pod (t := "geo.Point") (p := Geo.point) rfl rfl) (by decide) (by decide) ?_ ?_ ?_⟩
  · simp [ItemCodec.ofPods, Geo.point]
  · exact ⟨rfl, fun _ => rfl⟩
  · refine ⟨?_, trivial, ?_, ?_, trivial⟩
    · rintro - x hx
      cases hx
      have hrs : ∀ r ∈ [Geo.pointAt 1 0, Geo.pointAt 1 1], Geo.point.Accepts Geo.scope r := by
        simp [Geo.point_accepts]
      exact ⟨by decide, hrs⟩
    · rintro - x hx
      cases hx
      have hrs : ∀ r ∈ [Geo.pointAt 1 1, Geo.pointAt 0 9], Geo.point.Accepts Geo.scope r := by
        simp [Geo.point_accepts]
      exact ⟨by decide, hrs⟩
    · rintro ⟨⟩

end Store

end TypedWire
