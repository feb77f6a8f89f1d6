import TypedWire.Proofs.BrokenLink

namespace TypedWire

variable {σ τ α β χ μ : Type}

theorem transfer_eq_forM (size : χ → Nat) (move : χ → Action τ Unit) (done : Nat) (cs : List χ) :
    transfer (fun _ => false) size move done cs = cs.forM move := by
  induction cs generalizing done with
  | nil => rfl
  | cons c cs ih =>
    rw [transfer_cons, ih]
    rfl

theorem forM_run {ι : Type} {move : χ → Action τ Unit} (state : ι → τ) {next : ι → χ → ι}
    {Inv : ι → Prop} {cs : List χ} (hmove : ∀ c ∈ cs, ∀ x, Inv x →
      move c (state x) = .ok () (state (next x c)) ∧ Inv (next x c)) {x : ι} (hx : Inv x) :
    cs.forM move (state x) = .ok () (state (cs.foldl next x)) := by
  rw [← transfer_eq_forM (fun _ => 0) move 0 cs]
  exact transfer_run (fun x (_ : List Unit) => state x) (fun _ => ())
    (fun c hc x _ hx => hmove c hc x hx) hx [] 0

theorem forM_messages {move : χ → Action τ Unit} {send : μ → Action τ Unit}
    {message : χ → Checked μ} {cs : List χ} {ms : List μ}
    (hmove : ∀ c, move c = .ofChecked (message c) >>= send) (h : cs.mapM message = .ok ms) :
    cs.forM move = ms.forM send := by
  have hall := Checked.mapM_eq_ok.mp h
  clear h
  induction hall with
  | nil => rfl
  | @cons c m cs ms hm _ ih =>
    change (move c >>= fun _ => cs.forM move) = send m >>= fun _ => ms.forM send
    rw [hmove, hm, ih]
    rfl

theorem eq_of_flatMap_eq {cs : List χ} {f g : χ → List β} (h : cs.flatMap f = cs.flatMap g)
    (hlen : ∀ c ∈ cs, (f c).length = (g c).length) : ∀ c ∈ cs, f c = g c := by
  induction cs with
  | nil => exact List.forall_mem_nil _
  | cons c cs ih =>
    obtain ⟨hc, hlen⟩ := List.forall_mem_cons.mp hlen
    obtain ⟨hhead, htail⟩ := List.append_inj h hc
    exact List.forall_mem_cons.mpr ⟨hhead, ih htail hlen⟩

namespace Region

def overlay (out xs : List α) (as : List Nat) : List α := scatter xs as (gather out as)

section Overlay

variable {out xs : List α} {as : List Nat}

@[simp] theorem length_overlay : (overlay out xs as).length = xs.length := length_scatter ..

theorem getElem?_overlay (h : ∀ a ∈ as, a < out.length) (hlen : xs.length = out.length) {a : Nat}
    (ha : a ∈ as) : (overlay out xs as)[a]? = out[a]? := by
  induction as generalizing xs with
  | nil => cases ha
  | cons b as ih =>
    obtain ⟨hb, htail⟩ := List.forall_mem_cons.mp h
    have hset : overlay out xs (b :: as) = overlay out (xs.set b out[b]) as := by
      rw [overlay, gather, List.filterMap_cons, List.getElem?_eq_getElem hb]
      rfl
    rw [hset]
    by_cases hmem : a ∈ as
    · exact ih htail ((List.length_set ..).trans hlen) hmem
    · -- No later address overwrites the item.
      obtain rfl : a = b := (List.mem_cons.mp ha).resolve_right hmem
      rw [overlay, getElem?_scatter hmem, List.getElem?_set_self (hlen ▸ hb),
        List.getElem?_eq_getElem hb]

theorem foldl_overlay {cells : χ → List Nat} {cs : List χ}
    (h : ∀ c ∈ cs, ∀ a ∈ cells c, a < out.length) (hlen : xs.length = out.length)
    (hrest : ∀ a, (∀ c ∈ cs, a ∉ cells c) → xs[a]? = out[a]?) :
    cs.foldl (fun xs c => overlay out xs (cells c)) xs = out := by
  induction cs generalizing xs with
  | nil => exact List.ext_getElem? fun a => hrest a (List.forall_mem_nil _)
  | cons c cs ih =>
    obtain ⟨hc, htail⟩ := List.forall_mem_cons.mp h
    refine ih htail (length_overlay.trans hlen) fun a ha => ?_
    by_cases hmem : a ∈ cells c
    · exact getElem?_overlay hc hlen hmem
    · have hkept := hrest a (List.forall_mem_cons.mpr ⟨hmem, ha⟩)
      exact (getElem?_scatter hmem _ _).trans hkept

end Overlay

structure Apart (src dst : List α) (cs : List χ) (froms tos : χ → List Nat) : Prop where
  nodup : (cs.flatMap tos).Nodup
  froms_lt : ∀ c ∈ cs, ∀ a ∈ froms c, a < src.length
  tos_lt : ∀ c ∈ cs, ∀ b ∈ tos c, b < dst.length
  length_eq : ∀ c ∈ cs, (tos c).length = (froms c).length

def assembled (src dst : List α) (cs : List χ) (froms tos : χ → List Nat) : List α :=
  scatter dst (cs.flatMap tos) (gather src (cs.flatMap froms))

namespace Apart

variable {src dst : List α} {cs : List χ} {froms tos : χ → List Nat}

theorem gather_assembled (h : Apart src dst cs froms tos) :
    ∀ c ∈ cs, gather (assembled src dst cs froms tos) (tos c) = gather src (froms c) := by
  have hlt : ∀ b ∈ cs.flatMap tos, b < dst.length := by
    intro b hb
    obtain ⟨c, hc, hb⟩ := List.mem_flatMap.mp hb
    exact h.tos_lt c hc b hb
  have hlen : (cs.flatMap tos).length = (gather src (cs.flatMap froms)).length := by
    rw [gather_flatMap, List.length_flatMap, List.length_flatMap]
    congr 1
    exact List.map_congr_left fun c hc => (h.length_eq c hc).trans
      (length_gather (h.froms_lt c hc)).symm
  have hall : gather (assembled src dst cs froms tos) (cs.flatMap tos) =
      gather src (cs.flatMap froms) := gather_scatter h.nodup hlt hlen
  rw [gather_flatMap, gather_flatMap] at hall
  refine eq_of_flatMap_eq hall fun c hc => ?_
  rw [length_gather (h.froms_lt c hc), ← h.length_eq c hc]
  refine length_gather fun b hb => ?_
  rw [assembled, length_scatter]
  exact h.tos_lt c hc b hb

theorem scatter_eq_overlay (h : Apart src dst cs froms tos) {c : χ} (hc : c ∈ cs) (xs : List α) :
    scatter xs (tos c) (gather src (froms c)) =
      overlay (assembled src dst cs froms tos) xs (tos c) := by
  rw [overlay, h.gather_assembled c hc]

end Apart

end Region

open Region

namespace Link

def send (l : Link σ) (m : Request × Element) : Action σ Unit := l.write m.1 m.2

/-- In any order, and each as often as one likes, the messages are all carried out and leave `out`
behind. -/
def Replays (l : Link σ) (messages : List (Request × Element)) (s out : σ) : Prop :=
  ∀ sent : List (Request × Element), (∀ m, m ∈ sent ↔ m ∈ messages) →
    sent.forM l.send s = .ok () out

theorem replays_of_apart {l : Link σ} (state : List α → σ) (cells : Request → List Nat)
    {message : χ → Checked (Request × Element)} {messages : List (Request × Element)}
    {src dst : List α} {cs : List χ} {froms tos : χ → List Nat}
    (hapart : Apart src dst cs froms tos) (h : cs.mapM message = .ok messages)
    (hsend : ∀ c ∈ cs, ∀ m, message c = .ok m → cells m.1 = tos c ∧
      ∀ xs, xs.length = dst.length →
        l.send m (state xs) = .ok () (state (scatter xs (tos c) (gather src (froms c))))) :
    l.Replays messages (state dst) (state (assembled src dst cs froms tos)) := by
  intro sent hsent
  have hlen : (assembled src dst cs froms tos).length = dst.length := length_scatter ..
  have hstep : ∀ m ∈ sent, ∀ xs, xs.length = dst.length →
      l.send m (state xs) =
        .ok () (state (overlay (assembled src dst cs froms tos) xs (cells m.1))) ∧
      (overlay (assembled src dst cs froms tos) xs (cells m.1)).length = dst.length := by
    intro m hm xs hxs
    obtain ⟨c, hc, hmessage⟩ := Checked.exists_of_mapM h m ((hsent m).mp hm)
    obtain ⟨hcells, hplaced⟩ := hsend c hc m hmessage
    rw [hcells, ← hapart.scatter_eq_overlay hc]
    exact ⟨hplaced xs hxs, (length_scatter ..).trans hxs⟩
  rw [forM_run state hstep rfl]
  congr 2
  refine foldl_overlay ?_ hlen.symm ?_
  · intro m hm a ha
    obtain ⟨c, hc, hmessage⟩ := Checked.exists_of_mapM h m ((hsent m).mp hm)
    rw [(hsend c hc m hmessage).1] at ha
    rw [hlen]
    exact hapart.tos_lt c hc a ha
  · -- An address outside every message is outside every piece, since every piece is sent.
    intro a ha
    refine (getElem?_scatter ?_ _ _).symm
    intro hmem
    obtain ⟨c, hc, hac⟩ := List.mem_flatMap.mp hmem
    obtain ⟨m, hm, hmessage⟩ : ∃ m ∈ messages, message c = .ok m :=
      exists_of_forall₂ (Checked.mapM_eq_ok.mp h) c hc
    refine ha m ((hsent m).mpr hm) ?_
    rw [(hsend c hc m hmessage).1]
    exact hac

end Link

def Chunk.spanFrom (start : Nat) (c : Chunk Nat) : List Nat :=
  List.range' (start + c.offset) c.count

def Chunk.cellsFrom (axes start : List Nat) (c : Chunk (List Nat)) : List Nat :=
  addresses axes (List.zipWith (· + ·) start c.offset) c.count

namespace Proxy

variable (p : Proxy σ α)

def spanMessage (buffer : List α) (start : Nat) (c : Chunk Nat) : Checked (Request × Element) := do
  let e ← p.codec.packFlat (Region.slice buffer (start + c.offset) c.count)
  return (.flat c.pos c.count, e)

def chunkMessage (buffer : Block α) (start : List Nat) (c : Chunk (List Nat)) :
    Checked (Request × Element) := do
  let data ← Region.readBlock buffer (chunkStart start c) c.count
  let e ← p.codec.packBlock data
  return (⟨c.pos, c.count⟩, e)

/-- The requests of a flat write, each with its element, in the order of the plan. -/
def flatMessages (dims : List Nat) (pos : Nat) (buffer : List α) (start n : Nat) :
    Checked (List (Request × Element)) := do
  (← planFlat p.limit p.codec.size pos buffer.length start n dims).mapM (p.spanMessage buffer start)

def blockMessages (dims pos : List Nat) (buffer : Block α) (start counts : List Nat) :
    Checked (List (Request × Element)) := do
  let max ← itemsPerMessage p.limit p.codec.size
  (← planBlock dims buffer pos start counts max).mapM (p.chunkMessage buffer start)

section Sends

variable {p} {s s' : σ} {dims : List Nat} {messages : List (Request × Element)}

theorem storeSpan_eq (buffer : List α) (start : Nat) (c : Chunk Nat) :
    p.storeSpan buffer start c = .ofChecked (p.spanMessage buffer start c) >>= p.link.send := by
  rw [spanMessage, Action.ofChecked_bind, bind_assoc]
  rfl

theorem storeChunk_eq (buffer : Block α) (start : List Nat) (c : Chunk (List Nat)) :
    p.storeChunk buffer start c = .ofChecked (p.chunkMessage buffer start c) >>= p.link.send := by
  rw [chunkMessage, Action.ofChecked_bind, bind_assoc]
  refine bind_congr fun data => ?_
  rw [Action.ofChecked_bind, bind_assoc]
  rfl

theorem writeFlat_sends {pos start n : Nat} {buffer : List α}
    (hdims : p.link.dimensions s = .ok dims s')
    (h : p.flatMessages dims pos buffer start n = .ok messages) :
    p.writeFlat (fun _ => false) pos buffer start n s = messages.forM p.link.send s' := by
  obtain ⟨cs, hcs, hmessages⟩ := Checked.bind_eq_ok.mp h
  rw [writeFlat_planned hdims hcs, transfer_eq_forM,
    forM_messages (storeSpan_eq buffer start) hmessages]

theorem writeBlock_sends {pos start counts : List Nat} {buffer : Block α}
    (hdims : p.link.dimensions s = .ok dims s')
    (h : p.blockMessages dims pos buffer start counts = .ok messages) :
    p.writeBlock (fun _ => false) pos buffer start counts s = messages.forM p.link.send s' := by
  obtain ⟨max, hmax, h⟩ := Checked.bind_eq_ok.mp h
  obtain ⟨cs, hcs, hmessages⟩ := Checked.bind_eq_ok.mp h
  rw [writeBlock_planned hmax hdims hcs, transfer_eq_forM,
    forM_messages (storeChunk_eq buffer start) hmessages]

end Sends

variable {Γ : Scope} {codec : ItemCodec α} {Sound : α → Prop} {Carries : List α → Prop}
  {limit : Nat} {messages : List (Request × Element)}

section Flat

variable {region buffer : List α} {pos start n : Nat}

theorem flatMap_spanFrom (p n max a : Nat) :
    (FlatPlan.make p n max).chunks.flatMap (Chunk.spanFrom a) = List.range' a n :=
  flatMap_range' p n max a

theorem apart_spans (p max : Nat) (hr : pos + n ≤ region.length) (hb : start + n ≤ buffer.length) :
    Apart buffer region (FlatPlan.make p n max).chunks (Chunk.spanFrom start)
      (Chunk.spanFrom pos) where
  nodup := by
    rw [flatMap_spanFrom]
    exact List.nodup_range'
  froms_lt c hc a ha := by
    have hwithin := FlatPlan.chunks_within p n max c hc
    rw [Chunk.spanFrom, List.mem_range'_1] at ha
    omega
  tos_lt c hc a ha := by
    have hwithin := FlatPlan.chunks_within p n max c hc
    rw [Chunk.spanFrom, List.mem_range'_1] at ha
    omega
  length_eq _ _ := by rw [Chunk.spanFrom, Chunk.spanFrom, List.length_range', List.length_range']

theorem assembled_spans (p max : Nat) (hr : pos + n ≤ region.length)
    (hb : start + n ≤ buffer.length) :
    assembled buffer region (FlatPlan.make p n max).chunks (Chunk.spanFrom start)
      (Chunk.spanFrom pos) = splice region pos (slice buffer start n) := by
  have hlen : (slice buffer start n).length = n := length_slice hb
  rw [assembled, flatMap_spanFrom, flatMap_spanFrom, gather_range',
    splice_eq_scatter (by rw [hlen]; exact hr), hlen]

theorem flatMessages_replay (hcodec : codec.Faithful Sound)
    (hr : pos + n ≤ region.length) (hb : start + n ≤ buffer.length)
    (hsound : ∀ x ∈ buffer, Sound x)
    (h : (servingFlat codec limit).flatMessages [region.length] pos buffer start n =
      .ok messages) :
    (Link.serveFlat codec).Replays messages region (splice region pos (slice buffer start n)) := by
  obtain ⟨cs, hcs, hmessages⟩ := Checked.bind_eq_ok.mp h
  obtain ⟨-, max, -, rfl⟩ := planFlat_eq_ok.mp hcs
  have hchunks := inRequest_chunks pos n max
  rw [← assembled_spans pos max hr hb]
  refine Link.replays_of_apart id (fun q => addresses [region.length] q.pos q.count)
    (apart_spans pos max hr hb) hmessages fun c hc m hm => ?_
  obtain ⟨hpos, hwithin⟩ := hchunks c hc
  simp only [spanMessage, Checked.bind_eq_ok, Checked.pure_eq_ok] at hm
  obtain ⟨e, he, rfl⟩ := hm
  have hback : codec.unpackFlat e = .ok (slice buffer (start + c.offset) c.count) :=
    hcodec.flat (fun x hx => hsound x (mem_of_mem_slice hx)) he
  have hlen : (slice buffer (start + c.offset) c.count).length = c.count :=
    length_slice (by omega)
  constructor
  · rw [Chunk.spanFrom, ← hpos]
    exact addresses_flat region.length c.pos c.count
  · intro xs hxs
    have hroom : c.pos + c.count ≤ xs.length := by omega
    refine (Link.serveFlat_write hroom hlen hback).trans ?_
    rw [splice_eq_scatter (by rw [hlen]; exact hroom), hlen, hpos, ← gather_range']
    rfl

theorem exists_flatMessages (hΓ : Γ.Built) (hc : codec.BuiltIn Γ Carries) (hsize : 0 < codec.size)
    (hlimit : codec.size ≤ limit) (hr : pos + n ≤ region.length) (hb : start + n ≤ buffer.length)
    (hcarry : CarriesMessages Carries (limit / codec.size) (slice buffer start n)) :
    ∃ messages, (servingFlat codec limit).flatMessages [region.length] pos buffer start n =
      .ok messages := by
  have hplan := planFlat_make hsize hlimit hr hb
  obtain ⟨messages, hmessages⟩ : ∃ messages, ((FlatPlan.make pos n (limit / codec.size)).chunks.mapM
      ((servingFlat codec limit).spanMessage buffer start)) = .ok messages := by
    simp only [Checked.mapM_eq_ok]
    refine exists_forall₂ fun c hmem => ?_
    obtain ⟨e, he, -⟩ := hc.losslessFlat hΓ (carries_spans hsize hlimit hb hcarry pos c hmem)
    exact ⟨_, Checked.bind_eq_ok.mpr ⟨e, he, rfl⟩⟩
  exact ⟨messages, Checked.bind_eq_ok.mpr ⟨_, hplan, hmessages⟩⟩

end Flat

section Blocks

open Block

variable {region buffer : Block α} {pos start counts : List Nat} {cs : List (Chunk (List Nat))}

theorem flatMap_cellsFrom {p : List Nat} (htiles : BlockPlan.Tiles p counts cs)
    (hf : region.Fits pos counts) :
    cs.flatMap (Chunk.cellsFrom region.axes pos) = addresses region.axes pos counts :=
  htiles.addresses_eq hf.2

theorem apart_chunks {p : List Nat} (htiles : BlockPlan.Tiles p counts cs) (hr : region.WellFormed)
    (hb : buffer.WellFormed) (hf : region.Fits pos counts) (hf' : buffer.Fits start counts) :
    Apart buffer.items region.items cs (Chunk.cellsFrom buffer.axes start)
      (Chunk.cellsFrom region.axes pos) where
  nodup := by
    rw [flatMap_cellsFrom htiles hf]
    exact nodup_addresses hf.2
  froms_lt c hc := by
    rw [hb.length_items]
    exact addresses_lt (hf'.chunk htiles hc).2
  tos_lt c hc := by
    rw [hr.length_items]
    exact addresses_lt (hf.chunk htiles hc).2
  length_eq c hc := by
    have hto := length_addresses (hf.chunk htiles hc).2
    exact hto.trans (length_addresses (hf'.chunk htiles hc).2).symm

theorem assembled_chunks {p : List Nat} (htiles : BlockPlan.Tiles p counts cs)
    (hf : region.Fits pos counts) (hf' : buffer.Fits start counts) :
    ⟨region.dims, assembled buffer.items region.items cs (Chunk.cellsFrom buffer.axes start)
      (Chunk.cellsFrom region.axes pos)⟩ = region.paste pos buffer start counts := by
  rw [assembled, flatMap_cellsFrom htiles hf, flatMap_cellsFrom htiles hf']
  rfl

theorem blockMessages_replay (hcodec : codec.Faithful Sound) (hr : region.WellFormed)
    (hb : buffer.WellFormed) (hf : region.Fits pos counts) (hf' : buffer.Fits start counts)
    (hsound : ∀ x ∈ buffer.items, Sound x)
    (h : (serving codec limit).blockMessages region.axes pos buffer start counts = .ok messages) :
    (Link.serveBlock codec).Replays messages region (region.paste pos buffer start counts) := by
  obtain ⟨max, -, h⟩ := Checked.bind_eq_ok.mp h
  obtain ⟨cs, hcs, hmessages⟩ := Checked.bind_eq_ok.mp h
  have htiles := BlockPlan.tiles_of_make (planBlock_eq_ok.mp hcs).2.2
  rw [← assembled_chunks htiles hf hf']
  refine Link.replays_of_apart (Block.mk region.dims)
    (fun q => addresses region.axes q.pos q.count) (apart_chunks htiles hr hb hf hf') hmessages
    fun c hc m hm => ?_
  have hpart : buffer.Fits (chunkStart start c) c.count := hf'.chunk htiles hc
  simp only [chunkMessage, readBlock_part hb hpart, Checked.bind_eq_ok, Checked.pure_eq_ok] at hm
  obtain ⟨_, ⟨⟩, e, he, rfl⟩ := hm
  have hback : codec.unpackBlock e = .ok (buffer.part (chunkStart start c) c.count) :=
    hcodec.block (wellFormed_part hb hpart) (fun x hx => hsound x (mem_of_mem_gather hx)) he
  have hpos := htiles.pos_eq c hc
  rw [Chunk.cellsFrom, ← hpos]
  refine ⟨rfl, fun xs hxs => ?_⟩
  have hxs' : (Block.mk region.dims xs).WellFormed := by
    rw [Block.WellFormed, hxs]
    exact hr
  exact Link.serveBlock_write hxs' hb (hpos ▸ hf.chunk htiles hc) hpart hback

theorem exists_blockMessages (hΓ : Γ.Built) (hc : codec.BuiltIn Γ Carries) (hsize : 0 < codec.size)
    (hlimit : codec.size ≤ limit) (hr : region.WellFormed) (hb : buffer.WellFormed)
    (hf : region.Fits pos counts) (hf' : buffer.Fits start counts)
    (hcarry : CarriesMessages Carries (limit / codec.size) (buffer.part start counts).items) :
    ∃ messages, (serving codec limit).blockMessages region.axes pos buffer start counts =
      .ok messages := by
  obtain ⟨cs, hcs, htiles⟩ := exists_planBlock hr hf hf' (limit / codec.size)
  have hcarried := carries_parts hsize hlimit hb hf' hcarry (planBlock_eq_ok.mp hcs).2.2
  obtain ⟨messages, hmessages⟩ : ∃ messages,
      cs.mapM ((serving codec limit).chunkMessage buffer start) = .ok messages := by
    simp only [Checked.mapM_eq_ok]
    refine exists_forall₂ fun c hmem => ?_
    have hpart : buffer.Fits (chunkStart start c) c.count := hf'.chunk htiles hmem
    obtain ⟨e, he, -⟩ := hc.lossless hΓ (wellFormed_part hb hpart) (hcarried c hmem)
    exact ⟨_, Checked.bind_eq_ok.mpr ⟨_, readBlock_part hb hpart,
      Checked.bind_eq_ok.mpr ⟨e, he, rfl⟩⟩⟩
  exact ⟨messages, Checked.bind_eq_ok.mpr ⟨_, itemsPerMessage_eq_ok hsize hlimit,
    Checked.bind_eq_ok.mpr ⟨cs, hcs, hmessages⟩⟩⟩

end Blocks

/-- A limit with room for an item is one that messages can be planned by, wherever the codec carries
the items. -/
def Plannable (Γ : Scope) (codec : ItemCodec α) (limit : Nat) (items : List α)
    (planned : Checked (List (Request × Element))) : Prop :=
  ∀ Carries, codec.BuiltIn Γ Carries → 0 < codec.size → codec.size ≤ limit →
    CarriesMessages Carries (limit / codec.size) items → ∃ messages, planned = .ok messages

/-- A write, flat or of a block, is the sending of its messages. They may be sent in any order and
each of them again: every one of them succeeds, and in the end the region is what the write at hand
makes of it. -/
theorem messages_replay (hΓ : Γ.Built) (hc : codec.OfScope Γ Sound) (limit : Nat) :
    (∀ (region buffer : List α) (pos start n : Nat), pos + n ≤ region.length →
      start + n ≤ buffer.length → (∀ x ∈ buffer, Sound x) →
      let planned :=
        (servingFlat codec limit).flatMessages [region.length] pos buffer start n
      ∃ out, storeFlat region pos buffer start n = .ok out ∧
        Plannable Γ codec limit (slice buffer start n) planned ∧
        ∀ messages, planned = .ok messages →
          (servingFlat codec limit).writeFlat (fun _ => false) pos buffer start n region =
            messages.forM (Link.serveFlat codec).send region ∧
          (Link.serveFlat codec).Replays messages region out) ∧
    ∀ (region buffer : Block α) (pos start counts : List Nat), region.WellFormed →
      buffer.WellFormed → region.Fits pos counts → buffer.Fits start counts →
      (∀ x ∈ buffer.items, Sound x) →
      let planned := (serving codec limit).blockMessages region.axes pos buffer start counts
      ∃ out, storeBlock region pos buffer start counts = .ok out ∧
        Plannable Γ codec limit (buffer.part start counts).items planned ∧
        ∀ messages, planned = .ok messages →
          (serving codec limit).writeBlock (fun _ => false) pos buffer start counts region =
            messages.forM (Link.serveBlock codec).send region ∧
          (Link.serveBlock codec).Replays messages region out := by
  have hcodec := hc.faithful hΓ
  constructor
  · intro region buffer pos start n hr hb hsound planned
    refine ⟨splice region pos (slice buffer start n), ?_, ?_, ?_⟩
    · rw [storeFlat_eq, expectRoom_eq_ok.mpr ⟨hb, _, rfl, hr⟩]
      rfl
    · exact fun Carries hc hsize hlimit hcarry =>
        exists_flatMessages hΓ hc hsize hlimit hr hb hcarry
    · exact fun messages h => ⟨writeFlat_sends rfl h, flatMessages_replay hcodec hr hb hsound h⟩
  · intro region buffer pos start counts hr hb hf hf' hsound planned
    refine ⟨region.paste pos buffer start counts, ?_, ?_, ?_⟩
    · exact (storeBlock_eq_ok hr hb).mpr ⟨hf', hf, rfl⟩
    · exact fun Carries hc hsize hlimit hcarry =>
        exists_blockMessages hΓ hc hsize hlimit hr hb hf hf' hcarry
    · exact fun messages h =>
        ⟨writeBlock_sends rfl h, blockMessages_replay hcodec hr hb hf hf' hsound h⟩

theorem messages_replay_grid : ∃ codec, ItemCodec.pod Geo.scope "geo.Point" = .ok codec ∧
    let grid := ⟨[2, 2], [Geo.pointAt 0 0, Geo.pointAt 1 0, Geo.pointAt 0 1, Geo.pointAt 1 1]⟩
    let buffer := ⟨[2, 2], [Geo.pointAt 7 7, Geo.pointAt 8 8, Geo.pointAt 9 9, Geo.pointAt 0 9]⟩
    ∃ first second, (serving codec 9).blockMessages [2, 2] [0, 0] buffer [0, 0] [2, 2] =
        .ok [first, second] ∧
      (serving codec 9).writeBlock (fun _ => false) [0, 0] buffer [0, 0] [2, 2] grid =
        [first, second].forM (Link.serveBlock codec).send grid ∧
      [second, first, second].forM (Link.serveBlock codec).send grid = .ok () buffer := by
  refine ⟨_, rfl, ?_⟩
  intro grid buffer
  have hfits : Block.Fits grid [0, 0] [2, 2] := ⟨nofun, .origin _⟩
  have hfits' : Block.Fits buffer [0, 0] [2, 2] := ⟨nofun, .origin _⟩
  have hsound : ∀ x ∈ buffer.items, Value.RecordWellFormed x := by
    simp [buffer, Geo.pointAt_wellFormed]
  obtain ⟨out, hout, -, hreplay⟩ := (messages_replay Geo.scope_built
    (.pod (t := "geo.Point") rfl) 9).2 grid buffer [0, 0] [0, 0] [2, 2] rfl rfl hfits hfits' hsound
  cases hout
  have hsent : ∀ first second m : Request × Element,
      m ∈ [second, first, second] ↔ m ∈ [first, second] := by
    intro first second m
    simp only [List.mem_cons, List.not_mem_nil, or_false]
    tauto
  obtain ⟨hwrite, hreplays⟩ := hreplay _ rfl
  exact ⟨_, _, rfl, hwrite, hreplays _ (hsent _ _)⟩

end Proxy

end TypedWire
