import TypedWire.Proofs.Cells

namespace TypedWire

namespace Action

variable {σ τ α β : Type} {a : Action σ α} {f : α → Action σ β} {s s' : σ} {x : α} {e : WireError}

theorem bind_ok (h : a s = .ok x s') : (a >>= f) s = f x s' := by
  simp only [bind, EStateM.bind, h]

theorem bind_error (h : a s = .error e s') : (a >>= f) s = .error e s' := by
  simp only [bind, EStateM.bind, h]

theorem ofChecked_ok {r : Checked α} (h : r = .ok x) : (ofChecked r : Action σ α) s = .ok x s := by
  rw [h]
  rfl

theorem bind_ofChecked {r : Checked α} (h : r = .ok x) : (ofChecked r >>= f) s = f x s := by
  rw [h]
  rfl

theorem bind_refused {r : Checked α} (h : r = .error e) :
    (ofChecked r >>= f) s = .error e s := by
  rw [h]
  rfl

theorem beside_ok {b : τ} (h : a s = .ok x s') :
    (beside a : Action (σ × τ) α) (s, b) = .ok x (s', b) := by
  simp only [beside, h]

theorem beside_error {b : τ} (h : a s = .error e s') :
    (beside a : Action (σ × τ) α) (s, b) = .error e (s', b) := by
  simp only [beside, h]

theorem outcome_bind_ok (h : a s = .ok x s') : (a >>= f).outcome s = (f x).outcome s' := by
  rw [outcome, bind_ok h, outcome]

theorem outcome_bind_error (h : a s = .error e s') : (a >>= f).outcome s = (.error e, s') := by
  rw [outcome, bind_error h]

theorem bind_eq_ok {y : β} : (a >>= f) s = .ok y s' ↔
    ∃ x t, a s = .ok x t ∧ f x t = .ok y s' := by
  cases h : a s with
  | ok x t =>
    rw [bind_ok h]
    constructor
    · exact fun hf => ⟨x, t, rfl, hf⟩
    · rintro ⟨_, _, ⟨⟩, hf⟩
      exact hf
  | error e t =>
    rw [bind_error h]
    constructor
    · nofun
    · rintro ⟨_, _, ⟨⟩, -⟩

theorem ofChecked_eq_ok {r : Checked α} : (ofChecked r : Action σ α) s = .ok x s' ↔
    r = .ok x ∧ s = s' := by
  cases r with
  | ok y =>
    constructor
    · rintro ⟨⟩
      exact ⟨rfl, rfl⟩
    · rintro ⟨⟨⟩, rfl⟩
      rfl
  | error e =>
    constructor
    · nofun
    · rintro ⟨⟨⟩, -⟩

theorem ofChecked_pure (x : α) : (ofChecked (pure x) : Action σ α) = pure x := rfl

theorem ofChecked_bind (r : Checked α) (f : α → Checked β) :
    (ofChecked (r >>= f) : Action σ β) = ofChecked r >>= fun x => ofChecked (f x) := by
  cases r <;> rfl

section Keeps

variable {P : σ → Prop}

def Keeps (P : σ → Prop) (a : Action σ α) : Prop := ∀ s, P s → P (a.outcome s).2

theorem Keeps.bind {a : Action σ α} {f : α → Action σ β} (ha : a.Keeps P)
    (hf : ∀ s x s', P s → a s = .ok x s' → (f x).Keeps P) : (a >>= f).Keeps P := by
  intro s hs
  have hkept := ha s hs
  cases h : a s with
  | ok x s' =>
    rw [outcome, h] at hkept
    rw [outcome, bind_ok h]
    exact hf s x s' hs h s' hkept
  | error e s' =>
    rw [outcome, h] at hkept
    rw [outcome, bind_error h]
    exact hkept

theorem keeps_pure (x : α) : (pure x : Action σ α).Keeps P := fun _ hs => hs

theorem keeps_get : (get : Action σ σ).Keeps P := fun _ hs => hs

theorem keeps_ofChecked (r : Checked α) : (ofChecked r : Action σ α).Keeps P := by
  intro s hs
  rw [outcome_ofChecked]
  exact hs

theorem keeps_modify {f : σ → σ} (h : ∀ s, P s → P (f s)) :
    (modify f : Action σ PUnit).Keeps P := h

theorem keeps_beside {a : Action σ α} {P : σ × β → Prop} (h : ∀ b, a.Keeps fun s => P (s, b)) :
    (beside a).Keeps P := by
  rintro ⟨s, b⟩ hs
  rw [outcome_beside]
  exact h b s hs

end Keeps

end Action

section Transfer

variable {τ χ : Type} {size : χ → Nat} {move : χ → Action τ Unit}

theorem transfer_cons (c : χ) (cs : List χ) (done : Nat) :
    transfer (fun _ => false) size move done (c :: cs) =
      move c >>= fun _ => transfer (fun _ => false) size move (done + size c) cs :=
  rfl

theorem transfer_step {stop : τ → Bool} {s : τ} (h : stop s = false) (c : χ) (cs : List χ)
    (done : Nat) : transfer stop size move done (c :: cs) s =
      (move c >>= fun _ => transfer stop size move (done + size c) cs) s := by
  rw [transfer]
  simp only [bind, EStateM.bind, get, getThe, MonadStateOf.get, EStateM.get, h,
    Bool.false_eq_true, if_false]

theorem transfer_stop {stop : τ → Bool} {s : τ} (h : stop s = true) (c : χ) (cs : List χ)
    (done : Nat) : transfer stop size move done (c :: cs) s = .error (.cancelled done) s := by
  rw [transfer]
  simp only [bind, EStateM.bind, get, getThe, MonadStateOf.get, EStateM.get, h, if_true]
  rfl

inductive Completes (move : χ → Action τ Unit) : List χ → τ → τ → Prop
  | nil {s} : Completes move [] s s
  | cons {c cs s s' s''} : move c s = .ok () s' → Completes move cs s' s'' →
      Completes move (c :: cs) s s''

theorem Completes.transfer_append {stop : τ → Bool} {cs : List χ} {s s' : τ}
    (h : Completes move cs s s')
    (hstop : ∀ i < cs.length, ∀ t, Completes move (cs.take i) s t → stop t = false)
    (rest : List χ) (done : Nat) :
    transfer stop size move done (cs ++ rest) s =
      transfer stop size move (done + (cs.map size).sum) rest s' := by
  induction h generalizing done with
  | nil => rfl
  | @cons c cs s s' s'' hc hcs ih =>
    have hlater : ∀ i < cs.length, ∀ t, Completes move (cs.take i) s' t → stop t = false :=
      fun i hi t ht => hstop (i + 1) (Nat.succ_lt_succ hi) t (.cons hc ht)
    have hgo : stop s = false := hstop 0 (Nat.succ_pos _) s .nil
    rw [List.map_cons, List.sum_cons, ← Nat.add_assoc, ← ih hlater, List.cons_append,
      transfer_step hgo, Action.bind_ok hc]

/-- While every move succeeds, and keeps what the next one needs, so does the whole transfer;
`state` is where the moves so far, and what they have noted, have brought it. The moves may count on
`n` notes at most. -/
theorem completes_run {ι ν : Type} (state : ι → List ν → τ) (note : χ → ν) {next : ι → χ → ι}
    {Inv : ι → Prop} {n : Nat} {cs : List χ} (hmove : ∀ c ∈ cs, ∀ x log, Inv x → log.length < n →
      move c (state x log) = .ok () (state (next x c) (log ++ [note c])) ∧ Inv (next x c))
    {x : ι} (hx : Inv x) {log : List ν} (hlog : log.length + cs.length ≤ n) :
    Completes move cs (state x log) (state (cs.foldl next x) (log ++ cs.map note)) := by
  induction cs generalizing x log with
  | nil =>
    rw [List.map_nil, List.append_nil]
    exact .nil
  | cons c cs ih =>
    obtain ⟨hc, htail⟩ := List.forall_mem_cons.mp hmove
    rw [List.length_cons] at hlog
    obtain ⟨hrun, hnext⟩ := hc x log hx (by omega)
    have hroom : (log ++ [note c]).length + cs.length ≤ n := by
      rw [List.length_append, List.length_singleton]
      omega
    have hrest := ih htail hnext hroom
    rw [List.append_assoc, List.singleton_append] at hrest
    exact .cons hrun hrest

theorem transfer_run {ι ν : Type} (state : ι → List ν → τ) (note : χ → ν) {next : ι → χ → ι}
    {Inv : ι → Prop} {cs : List χ} (hmove : ∀ c ∈ cs, ∀ x log, Inv x →
      move c (state x log) = .ok () (state (next x c) (log ++ [note c])) ∧ Inv (next x c))
    {x : ι} (hx : Inv x) (log : List ν) (done : Nat) :
    transfer (fun _ => false) size move done cs (state x log) =
      .ok () (state (cs.foldl next x) (log ++ cs.map note)) := by
  have hrun : Completes move cs (state x log) (state (cs.foldl next x) (log ++ cs.map note)) :=
    completes_run state note (fun c hc x log hx _ => hmove c hc x log hx) hx (Nat.le_refl _)
  rw [← List.append_nil cs, hrun.transfer_append fun _ _ _ _ => rfl, List.append_nil]
  rfl

theorem transfer_ok {next : τ → χ → τ} {Inv : τ → Prop} {cs : List χ}
    (hmove : ∀ c ∈ cs, ∀ s, Inv s → move c s = .ok () (next s c) ∧ Inv (next s c)) {s : τ}
    (hs : Inv s) (done : Nat) :
    transfer (fun _ => false) size move done cs s = .ok () (cs.foldl next s) :=
  transfer_run (fun s (_ : List Unit) => s) (fun _ => ()) (fun c hc s _ => hmove c hc s) hs [] done

theorem foldl_beside {σ β : Type} (f : σ → β → χ → β) (cs : List χ) (s : σ) (b : β) :
    cs.foldl (fun x c => (x.1, f x.1 x.2 c)) (s, b) = (s, cs.foldl (f s) b) := by
  induction cs generalizing b with
  | nil => rfl
  | cons c cs ih => exact ih (f s b c)

end Transfer

namespace Proxy

variable {σ α : Type} {p : Proxy σ α} {stop : σ → Bool} {pos start counts dims : List Nat}
  {buffer : Block α} {s s' : σ} {max : Nat} {cs : List (Chunk (List Nat))} {e : WireError}

def loadChunk (p : Proxy σ α) (start : List Nat) (c : Chunk (List Nat)) :
    Action (σ × Block α) Unit := do
  let e ← Action.beside (p.link.read ⟨c.pos, c.count⟩)
  let data ← .ofChecked (p.codec.unpackBlock e)
  let (s, buffer) ← get
  set (s, ← .ofChecked (placeBlock buffer start c data))

def storeChunk (p : Proxy σ α) (buffer : Block α) (start : List Nat) (c : Chunk (List Nat)) :
    Action σ Unit := do
  let data ← .ofChecked (Region.readBlock buffer (chunkStart start c) c.count)
  let e ← .ofChecked (p.codec.packBlock data)
  p.link.write ⟨c.pos, c.count⟩ e

theorem loadChunk_run {c : Chunk (List Nat)} {x : Element} {data b : Block α}
    (hread : p.link.read ⟨c.pos, c.count⟩ s = .ok x s') (hdata : p.codec.unpackBlock x = .ok data)
    (hplace : placeBlock buffer start c data = .ok b) :
    p.loadChunk start c (s, buffer) = .ok () (s', b) := by
  unfold loadChunk
  rw [Action.bind_ok (Action.beside_ok hread), Action.bind_ofChecked hdata]
  exact Action.bind_ofChecked hplace

theorem storeChunk_run {c : Chunk (List Nat)} {x : Element} {data : Block α}
    (hdata : Region.readBlock buffer (chunkStart start c) c.count = .ok data)
    (hpack : p.codec.packBlock data = .ok x) :
    p.storeChunk buffer start c s = p.link.write ⟨c.pos, c.count⟩ x s := by
  unfold storeChunk
  rw [Action.bind_ofChecked hdata, Action.bind_ofChecked hpack]

def planFlat (limit size pos length start n : Nat) (dims : List Nat) :
    Checked (List (Chunk Nat)) := do
  expectRoom dims pos length start n
  return (FlatPlan.make pos n (← itemsPerMessage limit size)).chunks

def loadSpan (p : Proxy σ α) (start : Nat) (c : Chunk Nat) : Action (σ × List α) Unit := do
  let e ← Action.beside (p.link.read (.flat c.pos c.count))
  let values ← .ofChecked (p.codec.unpackFlat e)
  let (s, buffer) ← get
  set (s, ← .ofChecked (placeFlat buffer (start + c.offset) values c.count))

def storeSpan (p : Proxy σ α) (buffer : List α) (start : Nat) (c : Chunk Nat) : Action σ Unit := do
  let e ← .ofChecked (p.codec.packFlat (Region.slice buffer (start + c.offset) c.count))
  p.link.write (.flat c.pos c.count) e

section Flat

variable {pos start n : Nat} {buffer : List α}

theorem loadSpan_run {c : Chunk Nat} {x : Element} {values b : List α}
    (hread : p.link.read (.flat c.pos c.count) s = .ok x s')
    (hvalues : p.codec.unpackFlat x = .ok values)
    (hplace : placeFlat buffer (start + c.offset) values c.count = .ok b) :
    p.loadSpan start c (s, buffer) = .ok () (s', b) := by
  unfold loadSpan
  rw [Action.bind_ok (Action.beside_ok hread), Action.bind_ofChecked hvalues]
  exact Action.bind_ofChecked hplace

theorem storeSpan_run {c : Chunk Nat} {x : Element}
    (hpack : p.codec.packFlat (Region.slice buffer (start + c.offset) c.count) = .ok x) :
    p.storeSpan buffer start c s = p.link.write (.flat c.pos c.count) x s := by
  unfold storeSpan
  rw [Action.bind_ofChecked hpack]

theorem expectRoom_eq_ok {length : Nat} :
    expectRoom dims pos length start n = .ok () ↔
      start + n ≤ length ∧ ∃ d, dims = [d] ∧ pos + n ≤ d := by
  have honly : ∀ d, onlyAxis dims = .ok d ↔ dims = [d] := by
    intro d
    rcases dims with _ | ⟨a, _ | ⟨b, ds⟩⟩ <;> simp [onlyAxis]
  simp only [expectRoom, Checked.bind_eq_ok, Checked.exists_unit, Region.expectSpan_eq_ok, honly]

theorem planFlat_eq_ok {limit size length : Nat} {cs : List (Chunk Nat)} :
    planFlat limit size pos length start n dims = .ok cs ↔
      expectRoom dims pos length start n = .ok () ∧
        ∃ max, itemsPerMessage limit size = .ok max ∧ (FlatPlan.make pos n max).chunks = cs := by
  simp only [planFlat, Checked.bind_eq_ok, Checked.exists_unit, Checked.pure_eq_ok]

theorem planFlat_error {limit size length : Nat}
    (h : expectRoom dims pos length start n = .error e) :
    planFlat limit size pos length start n dims = .error e := by
  rw [planFlat, h]
  rfl

variable {cs : List (Chunk Nat)}

theorem readFlat_lost (hdims : p.link.dimensions s = .error e s') :
    p.readFlat stop pos start n (s, buffer) = .error e (s', buffer) :=
  Action.bind_error (Action.beside_error hdims)

theorem readFlat_planned (hdims : p.link.dimensions s = .ok dims s')
    (hcs : planFlat p.limit p.codec.size pos buffer.length start n dims = .ok cs) :
    p.readFlat stop pos start n (s, buffer) =
      transfer (fun s => stop s.1) Chunk.count (p.loadSpan start) 0 cs (s', buffer) := by
  obtain ⟨hroom, max, hmax, rfl⟩ := planFlat_eq_ok.mp hcs
  unfold readFlat
  rw [Action.bind_ok (Action.beside_ok hdims)]
  exact (Action.bind_ofChecked hroom).trans (Action.bind_ofChecked hmax)

theorem readFlat_refused (hdims : p.link.dimensions s = .ok dims s')
    (hcs : planFlat p.limit p.codec.size pos buffer.length start n dims = .error e) :
    p.readFlat stop pos start n (s, buffer) = .error e (s', buffer) := by
  unfold readFlat
  rw [Action.bind_ok (Action.beside_ok hdims)]
  cases hroom : expectRoom dims pos buffer.length start n with
  | error e' =>
    cases (planFlat_error hroom).symm.trans hcs
    exact Action.bind_refused hroom
  | ok =>
    cases hmax : itemsPerMessage p.limit p.codec.size with
    | error e' =>
      rw [planFlat, hroom, hmax] at hcs
      cases hcs
      exact (Action.bind_ofChecked hroom).trans (Action.bind_refused rfl)
    | ok max => cases (planFlat_eq_ok.mpr ⟨hroom, max, hmax, rfl⟩).symm.trans hcs

theorem writeFlat_planned (hdims : p.link.dimensions s = .ok dims s')
    (hcs : planFlat p.limit p.codec.size pos buffer.length start n dims = .ok cs) :
    p.writeFlat stop pos buffer start n s =
      transfer stop Chunk.count (p.storeSpan buffer start) 0 cs s' := by
  obtain ⟨hroom, max, hmax, rfl⟩ := planFlat_eq_ok.mp hcs
  unfold writeFlat
  rw [Action.bind_ok hdims, Action.bind_ofChecked hroom, Action.bind_ofChecked hmax]
  rfl

theorem writeFlat_refused (hdims : p.link.dimensions s = .ok dims s')
    (hroom : expectRoom dims pos buffer.length start n = .error e) :
    p.writeFlat stop pos buffer start n s = .error e s' := by
  unfold writeFlat
  rw [Action.bind_ok hdims, Action.bind_refused hroom]

end Flat

theorem planBlock_eq_ok : planBlock dims buffer pos start counts max = .ok cs ↔
    (buffer.axes ≠ [] ∧ Region.Within buffer.axes start counts) ∧
      (dims ≠ [] ∧ Region.Within dims pos counts) ∧ BlockPlan.make pos counts max = .ok cs := by
  simp only [planBlock, Checked.bind_eq_ok, Checked.exists_unit, Region.expectPart_eq_ok]

theorem readBlock_unsized (hmax : itemsPerMessage p.limit p.codec.size = .error e) :
    p.readBlock stop pos start counts (s, buffer) = .error e (s, buffer) := by
  unfold readBlock
  rw [Action.bind_refused hmax]

theorem readBlock_lost (hmax : itemsPerMessage p.limit p.codec.size = .ok max)
    (hdims : p.link.dimensions s = .error e s') :
    p.readBlock stop pos start counts (s, buffer) = .error e (s', buffer) := by
  unfold readBlock
  rw [Action.bind_ofChecked hmax, Action.bind_error (Action.beside_error hdims)]

theorem readBlock_planned (hmax : itemsPerMessage p.limit p.codec.size = .ok max)
    (hdims : p.link.dimensions s = .ok dims s')
    (hcs : planBlock dims buffer pos start counts max = .ok cs) :
    p.readBlock stop pos start counts (s, buffer) =
      transfer (fun s => stop s.1) (fun c => cellsOf c.count) (p.loadChunk start) 0 cs
        (s', buffer) := by
  unfold readBlock
  rw [Action.bind_ofChecked hmax, Action.bind_ok (Action.beside_ok hdims)]
  exact Action.bind_ofChecked hcs

theorem readBlock_refused (hmax : itemsPerMessage p.limit p.codec.size = .ok max)
    (hdims : p.link.dimensions s = .ok dims s')
    (hcs : planBlock dims buffer pos start counts max = .error e) :
    p.readBlock stop pos start counts (s, buffer) = .error e (s', buffer) := by
  unfold readBlock
  rw [Action.bind_ofChecked hmax, Action.bind_ok (Action.beside_ok hdims)]
  exact Action.bind_refused hcs

theorem writeBlock_planned (hmax : itemsPerMessage p.limit p.codec.size = .ok max)
    (hdims : p.link.dimensions s = .ok dims s')
    (hcs : planBlock dims buffer pos start counts max = .ok cs) :
    p.writeBlock stop pos buffer start counts s =
      transfer stop (fun c => cellsOf c.count) (p.storeChunk buffer start) 0 cs s' := by
  unfold writeBlock
  rw [Action.bind_ofChecked hmax, Action.bind_ok hdims, Action.bind_ofChecked hcs]
  rfl

theorem writeBlock_refused (hmax : itemsPerMessage p.limit p.codec.size = .ok max)
    (hdims : p.link.dimensions s = .ok dims s')
    (hcs : planBlock dims buffer pos start counts max = .error e) :
    p.writeBlock stop pos buffer start counts s = .error e s' := by
  unfold writeBlock
  rw [Action.bind_ofChecked hmax, Action.bind_ok hdims, Action.bind_refused hcs]

end Proxy

structure Transfer (τ χ : Type) where
  plan : Action τ (List χ)
  size : χ → Nat
  move : χ → Action τ Unit

def Transfer.run {τ χ : Type} (t : Transfer τ χ) (stop : τ → Bool) : Action τ Unit := do
  transfer stop t.size t.move 0 (← t.plan)

namespace Proxy

variable {σ α : Type} (p : Proxy σ α)

def flatRead (pos start n : Nat) : Transfer (σ × List α) (Chunk Nat) where
  plan := do
    let dims ← Action.beside p.link.dimensions
    .ofChecked (planFlat p.limit p.codec.size pos (← get).2.length start n dims)
  size := Chunk.count
  move := p.loadSpan start

def flatWrite (pos : Nat) (buffer : List α) (start n : Nat) : Transfer σ (Chunk Nat) where
  plan := do
    let dims ← p.link.dimensions
    .ofChecked (planFlat p.limit p.codec.size pos buffer.length start n dims)
  size := Chunk.count
  move := p.storeSpan buffer start

def blockRead (pos start counts : List Nat) : Transfer (σ × Block α) (Chunk (List Nat)) where
  plan := do
    let max ← .ofChecked (itemsPerMessage p.limit p.codec.size)
    let dims ← Action.beside p.link.dimensions
    .ofChecked (planBlock dims (← get).2 pos start counts max)
  size c := cellsOf c.count
  move := p.loadChunk start

def blockWrite (pos : List Nat) (buffer : Block α) (start counts : List Nat) :
    Transfer σ (Chunk (List Nat)) where
  plan := do
    let max ← .ofChecked (itemsPerMessage p.limit p.codec.size)
    let dims ← p.link.dimensions
    .ofChecked (planBlock dims buffer pos start counts max)
  size c := cellsOf c.count
  move := p.storeChunk buffer start

theorem readFlat_eq_run (stop : σ → Bool) (pos start n : Nat) :
    p.readFlat stop pos start n = (p.flatRead pos start n).run fun s => stop s.1 := by
  simp only [readFlat, Transfer.run, flatRead, planFlat, Action.ofChecked_bind,
    Action.ofChecked_pure, bind_assoc, pure_bind]
  rfl

theorem writeFlat_eq_run (stop : σ → Bool) (pos : Nat) (buffer : List α) (start n : Nat) :
    p.writeFlat stop pos buffer start n = (p.flatWrite pos buffer start n).run stop := by
  simp only [writeFlat, Transfer.run, flatWrite, planFlat, Action.ofChecked_bind,
    Action.ofChecked_pure, bind_assoc, pure_bind]
  rfl

theorem readBlock_eq_run (stop : σ → Bool) (pos start counts : List Nat) :
    p.readBlock stop pos start counts = (p.blockRead pos start counts).run fun s => stop s.1 := by
  simp only [readBlock, Transfer.run, blockRead, bind_assoc]
  rfl

theorem writeBlock_eq_run (stop : σ → Bool) (pos : List Nat) (buffer : Block α)
    (start counts : List Nat) :
    p.writeBlock stop pos buffer start counts =
      (p.blockWrite pos buffer start counts).run stop := by
  simp only [writeBlock, Transfer.run, blockWrite, bind_assoc]
  rfl

end Proxy

end TypedWire
