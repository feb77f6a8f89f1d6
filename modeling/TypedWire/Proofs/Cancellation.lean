import TypedWire.Proofs.Prefixes
import TypedWire.Proofs.Serving
import TypedWire.Proofs.Tokens

namespace TypedWire

variable {σ α β χ : Type}

open TypedWire.Action

namespace Link

theorem respects_fetch {l : Link σ} {f : σ → σ} {q : Request} (h : (l.read q).Respects f)
    (accept : Element → β → Checked β) : (l.fetch q accept).Respects (Prod.map f id) := by
  refine h.beside.bind fun e => ?_
  rintro ⟨s, b⟩
  change (ofChecked (accept e b) >>= fun b => set (f s, b)) (f s, b) =
    through _ ((ofChecked (accept e b) >>= fun b => set (s, b)) (s, b))
  cases accept e b <;> rfl

end Link

namespace Transfer

variable {l : Link σ} {q : χ → Request}

theorem logs_of_fetch {t : Transfer (Tap σ × β) χ} {accept : χ → Element → β → Checked β}
    (hkeeps : ∀ served log, t.plan.Keeps fun s => s.1.served = served ∧ s.1.log = log)
    (htoken : ∀ k, t.plan.Respects (Prod.map (·.withToken k) id))
    (hmove : ∀ c, t.move c = (Tap.link l).fetch (q c) (accept c)) :
    t.Logs Prod.fst (fun k => Prod.map (·.withToken k) id) (fun c => (.read, q c)) where
  plan_keeps := hkeeps
  move_ok {c s s'} h := by
    rw [hmove, Link.fetch_eq_ok] at h
    obtain ⟨x, hx, -⟩ := h
    exact (Tap.notes_read l (q c)).ok hx
  move_error {c s e s'} h := by
    rw [hmove] at h
    rcases (Link.fetch_eq_error.mp h).1 with h | ⟨x, h, -⟩
    · exact .inr ((Tap.notes_read l (q c)).error h)
    · exact .inr ((Tap.notes_read l (q c)).ok h).2
  plan_token := htoken
  move_token c k := by
    rw [hmove]
    exact Link.respects_fetch ((Tap.notes_read l (q c)).token k) _
  tap_token _ _ := rfl

theorem logs_of_send {t : Transfer (Tap σ) χ} {ready : χ → Checked Element}
    (hkeeps : ∀ served log, t.plan.Keeps fun s => s.served = served ∧ s.log = log)
    (htoken : ∀ k, t.plan.Respects (·.withToken k))
    (hmove : ∀ c, t.move c = ofChecked (ready c) >>= (Tap.link l).write (q c)) :
    t.Logs id (fun k => (·.withToken k)) (fun c => (.write, q c)) where
  plan_keeps := hkeeps
  move_ok {c s s'} h := by
    rw [hmove, bind_eq_ok] at h
    obtain ⟨e, _, he, h⟩ := h
    obtain ⟨-, rfl⟩ := ofChecked_eq_ok.mp he
    exact (Tap.notes_write l (q c) e).ok h
  move_error {c s e s'} h := by
    rw [hmove] at h
    cases hready : ready c with
    | error err =>
      rw [bind_refused hready] at h
      cases h
      exact .inl rfl
    | ok x =>
      rw [bind_ofChecked hready] at h
      exact .inr ((Tap.notes_write l (q c) x).error h)
  plan_token := htoken
  move_token c k := by
    rw [hmove]
    exact (respects_ofChecked _).bind fun e => (Tap.notes_write l (q c) e).token k
  tap_token _ _ := rfl

end Transfer

namespace Proxy

theorem storeChunk_eq_send (p : Proxy σ α) (buffer : Block α) (start : List Nat)
    (c : Chunk (List Nat)) : p.storeChunk buffer start c =
      ofChecked (Region.readBlock buffer (chunkStart start c) c.count >>= p.codec.packBlock) >>=
        p.link.write ⟨c.pos, c.count⟩ := by
  rw [storeChunk, ofChecked_bind, bind_assoc]

section Tokens

variable (p : Proxy σ α)

theorem logs_flatRead (pos start n : Nat) :
    (p.tapped.flatRead pos start n).Logs Prod.fst (fun k => Prod.map (·.withToken k) id)
      fun c => (.read, .flat c.pos c.count) := by
  have hdims := Tap.quiet_dimensions p.link
  refine Transfer.logs_of_fetch (fun served log => ?_) (fun k => ?_)
    (p.tapped.loadSpan_eq_fetch start)
  · exact (keeps_beside fun _ => hdims.keeps served log).bind fun _ _ _ _ _ =>
      keeps_get.bind fun _ _ _ _ _ => keeps_ofChecked _
  · exact (hdims.token k).beside.bind fun dims => respects_look fun b : List α =>
      planFlat p.limit p.codec.size pos b.length start n dims

theorem logs_flatWrite (pos : Nat) (buffer : List α) (start n : Nat) :
    (p.tapped.flatWrite pos buffer start n).Logs id (fun k => (·.withToken k))
      fun c => (.write, .flat c.pos c.count) := by
  have hdims := Tap.quiet_dimensions p.link
  refine Transfer.logs_of_send (fun served log => ?_) (fun k => ?_) fun _ => rfl
  · exact (hdims.keeps served log).bind fun _ _ _ _ _ => keeps_ofChecked _
  · exact (hdims.token k).bind fun _ => respects_ofChecked _

theorem logs_blockRead (pos start counts : List Nat) :
    (p.tapped.blockRead pos start counts).Logs Prod.fst (fun k => Prod.map (·.withToken k) id)
      fun c => (.read, ⟨c.pos, c.count⟩) := by
  have hdims := Tap.quiet_dimensions p.link
  refine Transfer.logs_of_fetch (fun served log => ?_) (fun k => ?_)
    (p.tapped.loadChunk_eq_fetch start)
  · exact (keeps_ofChecked _).bind fun _ _ _ _ _ =>
      (keeps_beside fun _ => hdims.keeps served log).bind fun _ _ _ _ _ =>
        keeps_get.bind fun _ _ _ _ _ => keeps_ofChecked _
  · exact (respects_ofChecked _).bind fun max => (hdims.token k).beside.bind fun dims =>
      respects_look fun b : Block α => planBlock dims b pos start counts max

theorem logs_blockWrite (pos : List Nat) (buffer : Block α) (start counts : List Nat) :
    (p.tapped.blockWrite pos buffer start counts).Logs id (fun k => (·.withToken k))
      fun c => (.write, ⟨c.pos, c.count⟩) := by
  have hdims := Tap.quiet_dimensions p.link
  refine Transfer.logs_of_send (fun served log => ?_) (fun k => ?_)
    (p.tapped.storeChunk_eq_send buffer start)
  · exact (keeps_ofChecked _).bind fun _ _ _ _ _ =>
      (hdims.keeps served log).bind fun _ _ _ _ _ => keeps_ofChecked _
  · exact (respects_ofChecked _).bind fun _ => (hdims.token k).bind fun _ => respects_ofChecked _

end Tokens

section Owners

variable {codec : ItemCodec α} {Sound : α → Prop} {limit j : Nat}

section Flat

open Region

variable {region buffer : List α} {pos start n : Nat} {cs : List (Chunk Nat)}

theorem of_planFlat {size length : Nat}
    (h : planFlat limit size pos length start n [region.length] = .ok cs) :
    ∃ max, (FlatPlan.make pos n max).chunks = cs ∧ pos + n ≤ region.length ∧
      start + n ≤ length ∧ ∀ c ∈ cs, c.pos = pos + c.offset := by
  obtain ⟨hroom, max, -, rfl⟩ := planFlat_eq_ok.mp h
  obtain ⟨hb, d, hd, hr⟩ := expectRoom_eq_ok.mp hroom
  cases hd
  exact ⟨max, rfl, hr, hb, FlatPlan.pos_of_mem_chunks pos n max⟩

theorem of_loadSpan (hf : codec.Faithful Sound) (hregion : ∀ x ∈ region, Sound x) {c : Chunk Nat}
    (hpos : c.pos = pos + c.offset) {s s' : Tap (List α) × List α} (hs : s.1.At region)
    (h : (servingFlat codec limit).tapped.loadSpan start c s = .ok () s') :
    s'.1.At region ∧
      s'.2 = splice s.2 (start + c.offset) (slice region (pos + c.offset) c.count) := by
  rw [loadSpan_eq_fetch, Link.fetch_eq_ok] at h
  obtain ⟨e, he, htake⟩ := h
  obtain ⟨r, hread, hs'⟩ := hs.of_read he
  obtain ⟨hreply, rfl⟩ := ofChecked_eq_ok.mp hread
  obtain ⟨_, _, hq, -, hpack⟩ := Link.repliedFlat_eq_ok.mp hreply
  cases hq
  obtain ⟨values, hvalues, -, hplace⟩ := takeFlat_eq_ok.mp htake
  have hback := hf.flat (fun x hx => hregion x (mem_of_mem_slice hx)) hpack
  cases hback.symm.trans hvalues
  exact ⟨hs', by rw [← hplace, hpos]⟩

theorem of_storeSpan (hf : codec.Faithful Sound) (hbuffer : ∀ x ∈ buffer, Sound x) {c : Chunk Nat}
    (hpos : c.pos = pos + c.offset) {t t' : Tap (List α)} (ht : t.At region)
    (h : (servingFlat codec limit).tapped.storeSpan buffer start c t = .ok () t') :
    t'.At (splice region (pos + c.offset) (slice buffer (start + c.offset) c.count)) := by
  obtain ⟨e, _, he, hwrite⟩ := bind_eq_ok.mp h
  obtain ⟨hpack, rfl⟩ := ofChecked_eq_ok.mp he
  obtain ⟨r, hwritten, ht'⟩ := ht.of_write hwrite
  have hwritten : Action.along (Link.writtenFlat codec _ e) region = .ok () r :=
    Link.serveFlat_write_eq ▸ hwritten
  obtain ⟨_, values, hq, hvalues, -, rfl⟩ :=
    Link.writtenFlat_eq_ok.mp (Link.along_eq_ok.mp hwritten)
  have hback := hf.flat (fun x hx => hbuffer x (mem_of_mem_slice hx)) hpack
  -- What the owner unpacked is the slice that was packed, so that is what it has written.
  cases hback.symm.trans hvalues
  obtain rfl : c.pos = _ := List.head_eq_of_cons_eq (Request.mk.inj hq).1
  rwa [hpos] at ht'

theorem flatRead_reaches (hf : codec.Faithful Sound) (hregion : ∀ x ∈ region, Sound x)
    {s' : Tap (List α) × List α}
    (h : ((servingFlat codec limit).tapped.flatRead pos start n).Reaches j cs
      (.make region, buffer) s') :
    s'.1.inner = region ∧ Moved ((cs.take j).map (·.count)).sum region (List.range' pos n) buffer
      (List.range' start n) s'.2 := by
  obtain ⟨⟨s₁, hplan, hrun⟩, -⟩ := h
  obtain ⟨dims, s₂, hdims, hplan⟩ := bind_eq_ok.mp hplan
  have howner : Action.beside (Tap.link (Link.serveFlat codec)).dimensions (.make region, buffer) =
    .ok [region.length] (.make region, buffer) := rfl
  cases howner.symm.trans hdims
  obtain ⟨hcs, rfl⟩ := ofChecked_eq_ok.mp hplan
  obtain ⟨max, rfl, hr, hb, hpos⟩ := of_planFlat hcs
  obtain ⟨⟨_, _, hs'⟩, hbuffer⟩ := hrun.follows (fun b s => s.1.At region ∧ s.2 = b)
    (fun b c => splice b (start + c.offset) (slice region (pos + c.offset) c.count))
    (fun c hc b s s' hs hmove =>
      hs.2 ▸ of_loadSpan hf hregion (hpos c (List.mem_of_mem_take hc)) hs.1 hmove)
    ⟨Tap.at_make region, rfl⟩
  rw [hbuffer, hs']
  exact ⟨rfl, moved_of_spans pos max hr hb j⟩

theorem flatWrite_reaches (hf : codec.Faithful Sound) (hbuffer : ∀ x ∈ buffer, Sound x)
    {t : Tap (List α)}
    (h : ((servingFlat codec limit).tapped.flatWrite pos buffer start n).Reaches j cs
      (.make region) t) :
    Moved ((cs.take j).map (·.count)).sum buffer (List.range' start n) region
      (List.range' pos n) t.inner := by
  obtain ⟨⟨t₁, hplan, hrun⟩, -⟩ := h
  obtain ⟨dims, t₂, hdims, hplan⟩ := bind_eq_ok.mp hplan
  have howner : (Tap.link (Link.serveFlat codec)).dimensions (.make region) =
    .ok [region.length] (.make region) := rfl
  cases howner.symm.trans hdims
  obtain ⟨hcs, rfl⟩ := ofChecked_eq_ok.mp hplan
  obtain ⟨max, rfl, hr, hb, hpos⟩ := of_planFlat hcs
  obtain ⟨_, _, ht⟩ := hrun.follows Tap.At
    (fun r c => splice r (pos + c.offset) (slice buffer (start + c.offset) c.count))
    (fun c hc _ _ _ ht hmove =>
      of_storeSpan hf hbuffer (hpos c (List.mem_of_mem_take hc)) ht hmove)
    (Tap.at_make region)
  rw [ht]
  exact moved_of_spans pos max hb hr j

end Flat

section Blocks

open Block

variable {region buffer : Block α} {pos start counts : List Nat} {cs : List (Chunk (List Nat))}

theorem of_loadChunk (hf : codec.Faithful Sound) (hsound : ∀ x ∈ region.items, Sound x)
    (hr : region.WellFormed) {c : Chunk (List Nat)} {s s' : Tap (Block α) × Block α}
    (hs : s.1.At region) (hb : s.2.WellFormed) (hfits : s.2.Fits (chunkStart start c) c.count)
    (h : (serving codec limit).tapped.loadChunk start c s = .ok () s') :
    s'.1.At region ∧ s'.2 = s.2.paste (chunkStart start c) region c.pos c.count := by
  rw [loadChunk_eq_fetch, Link.fetch_eq_ok] at h
  obtain ⟨e, he, htake⟩ := h
  obtain ⟨r, hread, hs'⟩ := hs.of_read he
  obtain ⟨hreply, rfl⟩ := ofChecked_eq_ok.mp hread
  obtain ⟨hpart, hpack⟩ := (Link.repliedBlock_eq_ok hr).mp hreply
  obtain ⟨data, hdata, hplace⟩ := Checked.bind_eq_ok.mp htake
  have hback := hf.block (wellFormed_part hr hpart)
    (fun x hx => hsound x (Region.mem_of_mem_gather hx)) hpack
  cases hback.symm.trans hdata
  exact ⟨hs', Except.ok.inj (hplace.symm.trans (placeBlock_part hr hb hpart hfits))⟩

theorem of_storeChunk (hf : codec.Faithful Sound) (hsound : ∀ x ∈ buffer.items, Sound x)
    (hb : buffer.WellFormed) {c : Chunk (List Nat)} {t t' : Tap (Block α)} (ht : t.At region)
    (hr : region.WellFormed) (hfits : buffer.Fits (chunkStart start c) c.count)
    (h : (serving codec limit).tapped.storeChunk buffer start c t = .ok () t') :
    t'.At (region.paste c.pos buffer (chunkStart start c) c.count) := by
  rw [storeChunk_eq_send] at h
  obtain ⟨e, _, he, hwrite⟩ := bind_eq_ok.mp h
  obtain ⟨hready, rfl⟩ := ofChecked_eq_ok.mp he
  obtain ⟨data, hdata, hpack⟩ := Checked.bind_eq_ok.mp hready
  cases (Region.readBlock_part hb hfits).symm.trans hdata
  obtain ⟨r, hwritten, ht'⟩ := ht.of_write hwrite
  have hwritten : Action.along (Link.writtenBlock codec _ e) region = .ok () r :=
    Link.serveBlock_write_eq ▸ hwritten
  obtain ⟨values, hvalues, -, -, -, rfl⟩ :=
    (Link.writtenBlock_eq_ok hr).mp (Link.along_eq_ok.mp hwritten)
  have hback := hf.block (wellFormed_part hb hfits)
    (fun x hx => hsound x (Region.mem_of_mem_gather hx)) hpack
  cases hback.symm.trans hvalues
  exact ht'

theorem blockRead_reaches (hf : codec.Faithful Sound) (hsound : ∀ x ∈ region.items, Sound x)
    (hr : region.WellFormed) (hb : buffer.WellFormed) {s' : Tap (Block α) × Block α}
    (h : ((serving codec limit).tapped.blockRead pos start counts).Reaches j cs
      (.make region, buffer) s') :
    s'.1.inner = region ∧ Block.Moved ((cs.take j).map fun c => cellsOf c.count).sum region pos
      buffer start counts s'.2 := by
  obtain ⟨⟨s₁, hplan, hrun⟩, -⟩ := h
  obtain ⟨max, _, hmax, hplan⟩ := bind_eq_ok.mp hplan
  obtain ⟨-, rfl⟩ := ofChecked_eq_ok.mp hmax
  obtain ⟨dims, s₂, hdims, hplan⟩ := bind_eq_ok.mp hplan
  have howner : Action.beside (Tap.link (Link.serveBlock codec)).dimensions
    (.make region, buffer) = .ok region.axes (.make region, buffer) := rfl
  cases howner.symm.trans hdims
  obtain ⟨hcs, rfl⟩ := ofChecked_eq_ok.mp hplan
  obtain ⟨hfits, hfits'⟩ := fits_of_planBlock hcs
  have htiles := BlockPlan.tiles_of_make (planBlock_eq_ok.mp hcs).2.2
  -- The buffer is pasted into chunk by chunk, and keeps the shape that the next paste needs.
  obtain ⟨⟨_, _, hs'⟩, hbuffer, -⟩ := hrun.follows
    (fun b s => s.1.At region ∧ s.2 = b ∧ b.WellFormed ∧ b.axes = buffer.axes)
    (fun b c => b.paste (chunkStart start c) region c.pos c.count)
    (fun c hc b s s' hs hmove => by
      obtain ⟨ht, rfl, hwf, haxes⟩ := hs
      have hroom : s.2.Fits start counts := hfits'.of_axes_eq haxes
      obtain ⟨ht', hb'⟩ := of_loadChunk hf hsound hr ht hwf
        (hroom.chunk htiles (List.mem_of_mem_take hc)) hmove
      exact ⟨ht', hb', hwf.paste, haxes⟩)
    ⟨Tap.at_make region, rfl, hb, rfl⟩
  rw [hbuffer, hs']
  exact ⟨rfl, moved_of_chunks htiles hr hb hfits hfits' htiles.pos_eq (fun _ _ => rfl) j⟩

theorem blockWrite_reaches (hf : codec.Faithful Sound) (hsound : ∀ x ∈ buffer.items, Sound x)
    (hr : region.WellFormed) (hb : buffer.WellFormed) {t : Tap (Block α)}
    (h : ((serving codec limit).tapped.blockWrite pos buffer start counts).Reaches j cs
      (.make region) t) :
    Block.Moved ((cs.take j).map fun c => cellsOf c.count).sum buffer start region pos counts
      t.inner := by
  obtain ⟨⟨t₁, hplan, hrun⟩, -⟩ := h
  obtain ⟨max, _, hmax, hplan⟩ := bind_eq_ok.mp hplan
  obtain ⟨-, rfl⟩ := ofChecked_eq_ok.mp hmax
  obtain ⟨dims, t₂, hdims, hplan⟩ := bind_eq_ok.mp hplan
  have howner : (Tap.link (Link.serveBlock codec)).dimensions (.make region) =
    .ok region.axes (.make region) := rfl
  cases howner.symm.trans hdims
  obtain ⟨hcs, rfl⟩ := ofChecked_eq_ok.mp hplan
  obtain ⟨hfits, hfits'⟩ := fits_of_planBlock hcs
  have htiles := BlockPlan.tiles_of_make (planBlock_eq_ok.mp hcs).2.2
  obtain ⟨⟨_, _, ht⟩, -⟩ := hrun.follows (fun r t => t.At r ∧ Storing region r)
    (fun r c => r.paste c.pos buffer (chunkStart start c) c.count)
    (fun c hc r t t' ht hmove =>
      ⟨of_storeChunk hf hsound hb ht.1 ht.2.1
        (hfits'.chunk htiles (List.mem_of_mem_take hc)) hmove, ht.2.1.paste, ht.2.2⟩)
    ⟨Tap.at_make region, hr, rfl⟩
  rw [ht]
  exact moved_of_chunks htiles hb hr hfits' hfits (fun _ _ => rfl) htiles.pos_eq j

end Blocks

end Owners

/-- Reads and writes under a token that is never raised are the ones that block: in their result, in
what is requested, and in all that they leave. So they are under a token that is raised behind `j`
chunks, unless the transfer comes to chunk `j`; there it ends, with the requests for the chunks
before it and no other. Over the owner of a region it has then moved the items of those chunks, the
first ones of the request, and left all else as it was. -/
theorem cancelled_between_chunks (p : Proxy σ α) (s : σ) :
    ((∀ (pos start n : Nat) (buffer : List α),
        (p.tapped.flatRead pos start n).Cancels Prod.fst (fun k => Prod.map (·.withToken k) id)
          (fun c => (.read, .flat c.pos c.count))
          (p.tapped.readFlat (fun _ => false) pos start n)
          (p.tapped.readFlat Tap.cancelled pos start n) (.make s, buffer) ∧
        (p.tapped.flatWrite pos buffer start n).Cancels id (fun k => (·.withToken k))
          (fun c => (.write, .flat c.pos c.count))
          (p.tapped.writeFlat (fun _ => false) pos buffer start n)
          (p.tapped.writeFlat Tap.cancelled pos buffer start n) (.make s)) ∧
      ∀ (pos start counts : List Nat) (buffer : Block α),
        (p.tapped.blockRead pos start counts).Cancels Prod.fst
          (fun k => Prod.map (·.withToken k) id) (fun c => (.read, ⟨c.pos, c.count⟩))
          (p.tapped.readBlock (fun _ => false) pos start counts)
          (p.tapped.readBlock Tap.cancelled pos start counts) (.make s, buffer) ∧
        (p.tapped.blockWrite pos buffer start counts).Cancels id (fun k => (·.withToken k))
          (fun c => (.write, ⟨c.pos, c.count⟩))
          (p.tapped.writeBlock (fun _ => false) pos buffer start counts)
          (p.tapped.writeBlock Tap.cancelled pos buffer start counts) (.make s)) ∧
    ∀ (Γ : Scope) (codec : ItemCodec α) (Sound : α → Prop) (limit j : Nat), Γ.Built →
      codec.OfScope Γ Sound →
      (∀ (region buffer : List α) (pos start n : Nat) (cs : List (Chunk Nat)),
        let moved := ((cs.take j).map (·.count)).sum
        (∀ s', (∀ x ∈ region, Sound x) →
          ((servingFlat codec limit).tapped.flatRead pos start n).Reaches j cs
            (.make region, buffer) s' →
          s'.1.inner = region ∧
            Region.Moved moved region (List.range' pos n) buffer (List.range' start n) s'.2) ∧
        ∀ t, (∀ x ∈ buffer, Sound x) →
          ((servingFlat codec limit).tapped.flatWrite pos buffer start n).Reaches j cs
            (.make region) t →
          Region.Moved moved buffer (List.range' start n) region (List.range' pos n) t.inner) ∧
      ∀ (region buffer : Block α) (pos start counts : List Nat) (cs : List (Chunk (List Nat))),
        region.WellFormed → buffer.WellFormed →
        let moved := ((cs.take j).map fun c => cellsOf c.count).sum
        (∀ s', (∀ x ∈ region.items, Sound x) →
          ((serving codec limit).tapped.blockRead pos start counts).Reaches j cs
            (.make region, buffer) s' →
          s'.1.inner = region ∧ Block.Moved moved region pos buffer start counts s'.2) ∧
        ∀ t, (∀ x ∈ buffer.items, Sound x) →
          ((serving codec limit).tapped.blockWrite pos buffer start counts).Reaches j cs
            (.make region) t →
          Block.Moved moved buffer start region pos counts t.inner := by
  refine ⟨⟨fun pos start n buffer => ⟨?_, ?_⟩, fun pos start counts buffer => ⟨?_, ?_⟩⟩,
    fun Γ codec Sound limit j hΓ hc => ⟨?_, ?_⟩⟩
  · rw [readFlat_eq_run, readFlat_eq_run]
    exact (p.logs_flatRead pos start n).cancels rfl rfl
  · rw [writeFlat_eq_run, writeFlat_eq_run]
    exact (p.logs_flatWrite pos buffer start n).cancels rfl rfl
  · rw [readBlock_eq_run, readBlock_eq_run]
    exact (p.logs_blockRead pos start counts).cancels rfl rfl
  · rw [writeBlock_eq_run, writeBlock_eq_run]
    exact (p.logs_blockWrite pos buffer start counts).cancels rfl rfl
  · intro region buffer pos start n cs
    exact ⟨fun _ hsound => flatRead_reaches (hc.faithful hΓ) hsound,
      fun _ hsound => flatWrite_reaches (hc.faithful hΓ) hsound⟩
  · intro region buffer pos start counts cs hr hb
    exact ⟨fun _ hsound => blockRead_reaches (hc.faithful hΓ) hsound hr hb,
      fun _ hsound => blockWrite_reaches (hc.faithful hΓ) hsound hr hb⟩

def paired : Proxy (Block (Item .int32)) (Item .int32) := serving (.numeric Geo.scope .int32) 8

def zeros : Block (Item .int32) := ⟨[2, 2], List.replicate 4 (.ofInt32 0)⟩

def numbers : Block (Item .int32) := ⟨[2, 2], [.ofInt32 7, .ofInt32 8, .ofInt32 9, .ofInt32 5]⟩

theorem cancelled_between_chunks_numbers :
    ∃ t, (paired.tapped.writeBlock Tap.cancelled [0, 0] numbers [0, 0] [2, 2]).outcome
        ((Tap.make zeros).withToken (some 1)) = (.error (.cancelled 2), t) ∧
      t.log = [(.write, ⟨[0, 0], [2, 1]⟩)] ∧
      Block.Moved 2 numbers [0, 0] zeros [0, 0] [2, 2] t.inner := by
  let columns : List (Chunk (List Nat)) :=
    [⟨[0, 0], [0, 0], [2, 1]⟩, ⟨[0, 1], [0, 1], [2, 1]⟩]
  have hreach : (paired.tapped.blockWrite [0, 0] numbers [0, 0] [2, 2]).Reaches 1 columns
      (.make zeros) (.seen ⟨[2, 2], [.ofInt32 7, .ofInt32 8, .ofInt32 0, .ofInt32 0]⟩
        [(.write, ⟨[0, 0], [2, 1]⟩)] 1) := ⟨⟨.make zeros, rfl, .cons rfl .nil⟩, by decide⟩
  obtain ⟨⟨-, hcancels⟩, howner⟩ := cancelled_between_chunks paired zeros
  obtain ⟨hend, hlog, -⟩ := (hcancels [0, 0] [0, 0] [2, 2] numbers).2.stopped _ _ _ hreach
  have hmoved := ((howner Geo.scope _ (fun _ => True) 8 1 Geo.scope_built (.numeric .int32)).2 zeros
    numbers [0, 0] [0, 0] [2, 2] columns rfl rfl).2 _ (fun _ _ => trivial) hreach
  exact ⟨_, hend, hlog, hmoved⟩

/-- The token is looked at before a chunk is packed: where it is raised and the next item is one
that the codec refuses, nothing is requested either way, but only the write that blocks tells of
the item. -/
theorem cancelled_before_packing : ∃ codec, ItemCodec.pod Geo.scope "geo.Point" = .ok codec ∧
    let half : Record Value := ⟨"geo.Point", [("x", .scalar ⟨.int16, 7, nofun⟩)]⟩
    let p := (servingFlat codec 9).tapped
    let blocking := (p.writeFlat (fun _ => false) 0 [half] 0 1).outcome (.make [Geo.pointAt 0 0])
    let async := (p.writeFlat Tap.cancelled 0 [half] 0 1).outcome
      ((Tap.make [Geo.pointAt 0 0]).withToken (some 0))
    blocking.2.log = [] ∧ blocking.1 = .error (.missingElement "y") ∧
      async.1 = .error (.cancelled 0) :=
  ⟨_, rfl, rfl, rfl, rfl⟩

end Proxy

end TypedWire
