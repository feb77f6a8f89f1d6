import TypedWire.Proofs.UntrustedLink

/-!
Transfers under a token. The token of a tap is looked at before each chunk and nowhere else, so
until it is raised a transfer does what it does without one; raised between two chunks, it ends the
transfer there (`Transfer.Logs.cancels`).
-/

namespace TypedWire

variable {σ τ α β χ : Type}

namespace Action

def through (f : σ → τ) : EStateM.Result WireError σ α → EStateM.Result WireError τ α
  | .ok x s => .ok x (f s)
  | .error e s => .error e (f s)

def Respects (f : σ → σ) (a : Action σ α) : Prop := ∀ s, a (f s) = through f (a s)

variable {f : σ → σ} {a : Action σ α}

theorem Respects.bind {g : α → Action σ β} (ha : a.Respects f) (hg : ∀ x, (g x).Respects f) :
    (a >>= g).Respects f := by
  intro s
  have h := ha s
  cases hs : a s with
  | ok x s' =>
    rw [hs] at h
    rw [bind_ok h, bind_ok hs]
    exact hg x s'
  | error e s' =>
    rw [hs] at h
    rw [bind_error h, bind_error hs]
    rfl

theorem respects_ofChecked (r : Checked α) : (ofChecked r : Action σ α).Respects f := by
  intro s
  cases r <;> rfl

theorem Respects.beside (ha : a.Respects f) :
    (beside a : Action (σ × β) α).Respects (Prod.map f id) := by
  rintro ⟨s, b⟩
  have h := ha s
  cases hs : a s with
  | ok x s' =>
    rw [hs] at h
    rw [beside_ok hs]
    exact beside_ok h
  | error e s' =>
    rw [hs] at h
    rw [beside_error hs]
    exact beside_error h

theorem respects_look (g : β → Checked α) :
    (do ofChecked (g (← get).2) : Action (σ × β) α).Respects (Prod.map f id) := by
  rintro ⟨s, b⟩
  exact respects_ofChecked (g b) (s, b)

end Action

open TypedWire.Action

section Transfers

variable {f : τ → τ} {move : χ → Action τ Unit} {size : χ → Nat} {stop : τ → Bool} {cs ds : List χ}
  {s s' t : τ}

namespace Completes

theorem map (hf : ∀ c, (move c).Respects f) (h : Completes move cs s s') :
    Completes move cs (f s) (f s') := by
  induction h with
  | nil => exact .nil
  | @cons c _ _ _ _ hc _ ih =>
    refine .cons ?_ ih
    rw [hf c, hc]
    rfl

theorem eq (h : Completes move cs s s') (h' : Completes move cs s t) : s' = t := by
  induction h with
  | nil =>
    cases h'
    rfl
  | cons hc _ ih =>
    cases h' with
    | cons hc' h' =>
      cases hc.symm.trans hc'
      exact ih h'

theorem take (h : Completes move cs s s') (i : Nat) : ∃ t, Completes move (cs.take i) s t := by
  induction h generalizing i with
  | @nil s =>
    rw [List.take_nil]
    exact ⟨s, .nil⟩
  | cons hc _ ih =>
    cases i with
    | zero => exact ⟨_, .nil⟩
    | succ i =>
      obtain ⟨t, ht⟩ := ih i
      exact ⟨t, .cons hc ht⟩

theorem follows {ι : Type} (R : ι → τ → Prop) (next : ι → χ → ι)
    (hstep : ∀ c ∈ cs, ∀ x s s', R x s → move c s = .ok () s' → R (next x c) s')
    (h : Completes move cs s s') {x : ι} (hx : R x s) : R (cs.foldl next x) s' := by
  induction h generalizing x with
  | nil => exact hx
  | cons hc _ ih =>
    obtain ⟨hstep, htail⟩ := List.forall_mem_cons.mp hstep
    exact ih htail (hstep x _ _ hx hc)

end Completes

theorem transfer_through (hf : ∀ c, (move c).Respects f)
    (hgo : ∀ i < cs.length, ∀ t, Completes move (cs.take i) s t → stop (f t) = false)
    (done : Nat) :
    transfer stop size move done cs (f s) =
      through f (transfer (fun _ => false) size move done cs s) := by
  induction cs generalizing s done with
  | nil => rfl
  | cons c cs ih =>
    have hmove := hf c s
    rw [transfer_step (hgo 0 (Nat.succ_pos _) s .nil), transfer_cons]
    cases hc : move c s with
    | error e s' =>
      rw [hc] at hmove
      rw [bind_error hc, bind_error hmove]
      rfl
    | ok u s' =>
      rw [hc] at hmove
      rw [bind_ok hc, bind_ok hmove]
      exact ih (fun i hi t ht => hgo (i + 1) (Nat.succ_lt_succ hi) t (.cons hc ht)) _

theorem transfer_stopped (hf : ∀ c, (move c).Respects f) (h : Completes move cs s s')
    (hgo : ∀ i < cs.length, ∀ t, Completes move (cs.take i) s t → stop (f t) = false)
    (hstop : stop (f s') = true) (c : χ) (rest : List χ) (done : Nat) :
    transfer stop size move done (cs ++ c :: rest) (f s) =
      .error (.cancelled (done + (cs.map size).sum)) (f s') := by
  have hgo' : ∀ i < cs.length, ∀ t, Completes move (cs.take i) (f s) t → stop t = false := by
    intro i hi t ht
    obtain ⟨u, hu⟩ := h.take i
    rw [ht.eq (hu.map hf)]
    exact hgo i hi u hu
  rw [(h.map hf).transfer_append hgo', transfer_stop hstop]

end Transfers

namespace Tap

def withToken (t : Tap σ) (token : Option Nat) : Tap σ :=
  { t with faults := { t.faults with cancelAfter := token } }

structure Quiet (a : Action (Tap σ) α) : Prop where
  state : ∀ t, ∃ s, (a.outcome t).2 = { t with inner := s }
  token : ∀ k, a.Respects (·.withToken k)

theorem Quiet.of_ok {a : Action (Tap σ) α} (h : Quiet a) {t u : Tap σ} {x : α}
    (ha : a t = .ok x u) : ∃ s, u = { t with inner := s } := by
  have hstate := h.state t
  rwa [outcome, ha] at hstate

theorem Quiet.of_error {a : Action (Tap σ) α} (h : Quiet a) {t u : Tap σ} {e : WireError}
    (ha : a t = .error e u) : ∃ s, u = { t with inner := s } := by
  have hstate := h.state t
  rwa [outcome, ha] at hstate

theorem Quiet.keeps {a : Action (Tap σ) α} (h : Quiet a) (served : Nat)
    (log : List (Access × Request)) : a.Keeps fun t => t.served = served ∧ t.log = log := by
  intro t ht
  obtain ⟨s, hs⟩ := h.state t
  rw [hs]
  exact ht

theorem quiet_onInner (a : Action σ α) : Quiet (onInner a) where
  state t := by
    simp only [outcome, onInner]
    cases a t.inner <;> exact ⟨_, rfl⟩
  token k t := by
    simp only [onInner, withToken]
    cases a t.inner <;> rfl

theorem quiet_pure (x : α) : Quiet (pure x : Action (Tap σ) α) :=
  ⟨fun t => ⟨t.inner, rfl⟩, fun _ _ => rfl⟩

structure Notes (entry : Access × Request) (a : Action (Tap σ) α) : Prop where
  ok : ∀ {t x t'}, a t = .ok x t' → t'.served = t.served + 1 ∧ t'.log = t.log ++ [entry]
  error : ∀ {t e t'}, a t = .error e t' → t'.log = t.log ++ [entry]
  token : ∀ k, a.Respects (·.withToken k)

def noted (t : Tap σ) (entry : Access × Request) : Tap σ :=
  { t with log := t.log ++ [entry], issued := t.issued + 1 }

theorem request_eq (access : Access) (q : Request) (act : Nat → Action (Tap σ) α) (t : Tap σ) :
    request access q act t =
      if t.faults.failAt = some t.issued then
        .error (.transport "link down") (t.noted (access, q))
      else match act t.issued (t.noted (access, q)) with
        | .ok x t' => .ok x { t' with served := t'.served + 1 }
        | .error e t' => .error e t' := by
  by_cases h : t.faults.failAt = some t.issued
  · simp only [request, bind, EStateM.bind, get, getThe, MonadStateOf.get, EStateM.get, set,
      EStateM.set, h, if_true]
    rfl
  · simp only [request, bind, EStateM.bind, get, getThe, MonadStateOf.get, EStateM.get, set,
      EStateM.set, h, if_false, pure, EStateM.pure, noted]
    cases act t.issued { t with log := t.log ++ [(access, q)], issued := t.issued + 1 } <;> rfl

section Requests

variable {access : Access} {q : Request} {act : Nat → Action (Tap σ) α} {t t' : Tap σ} {x : α}
  {e : WireError}

theorem of_request_ok (h : request access q act t = .ok x t') :
    ∃ u, act t.issued (t.noted (access, q)) = .ok x u ∧ t' = { u with served := u.served + 1 } := by
  rw [request_eq] at h
  by_cases hfail : t.faults.failAt = some t.issued
  · rw [if_pos hfail] at h
    cases h
  · rw [if_neg hfail] at h
    cases hact : act t.issued (t.noted (access, q)) with
    | ok y u =>
      rw [hact] at h
      cases h
      exact ⟨u, rfl, rfl⟩
    | error e u =>
      rw [hact] at h
      cases h

theorem of_request_error (h : request access q act t = .error e t') :
    t' = t.noted (access, q) ∨ act t.issued (t.noted (access, q)) = .error e t' := by
  rw [request_eq] at h
  by_cases hfail : t.faults.failAt = some t.issued
  · rw [if_pos hfail] at h
    cases h
    exact .inl rfl
  · rw [if_neg hfail] at h
    cases hact : act t.issued (t.noted (access, q)) with
    | ok y u =>
      rw [hact] at h
      cases h
    | error e' u =>
      rw [hact] at h
      cases h
      exact .inr rfl

theorem request_withToken {k : Option Nat} (h : ∀ n, (act n).Respects (·.withToken k)) :
    (request access q act).Respects (·.withToken k) := by
  intro t
  have hact := h t.issued (t.noted (access, q))
  rw [request_eq, request_eq]
  by_cases hfail : t.faults.failAt = some t.issued
  · have hfail' : (t.withToken k).faults.failAt = some (t.withToken k).issued := hfail
    rw [if_pos hfail, if_pos hfail']
    rfl
  · have hfail' : (t.withToken k).faults.failAt ≠ some (t.withToken k).issued := hfail
    have hnoted : act (t.withToken k).issued ((t.withToken k).noted (access, q)) = _ := hact
    rw [if_neg hfail, if_neg hfail', hnoted]
    cases act t.issued (t.noted (access, q)) <;> rfl

theorem notes_request (h : ∀ n, Quiet (act n)) : Notes (access, q) (request access q act) where
  ok hok := by
    obtain ⟨u, hact, rfl⟩ := of_request_ok hok
    obtain ⟨s, rfl⟩ := (h _).of_ok hact
    exact ⟨rfl, rfl⟩
  error herror := by
    rcases of_request_error herror with rfl | hact
    · rfl
    · obtain ⟨s, rfl⟩ := (h _).of_error hact
      rfl
  token k := request_withToken fun n => (h n).token k

end Requests

theorem quiet_of {a : Action (Tap σ) α}
    (h : ∀ t, ∃ b : Action (Tap σ) α, Quiet b ∧ a t = b t ∧
      ∀ k, a (t.withToken k) = b (t.withToken k)) : Quiet a where
  state t := by
    obtain ⟨b, hb, hat, -⟩ := h t
    rw [outcome, hat]
    exact hb.state t
  token k t := by
    obtain ⟨b, hb, hat, hk⟩ := h t
    rw [hk, hat]
    exact hb.token k t

section Links

variable (l : Link σ)

theorem notes_read (q : Request) : Notes (.read, q) ((link l).read q) := by
  simp only [link]
  refine notes_request fun n => quiet_of ?_
  rintro ⟨s, log, ⟨failAt, tamper, k, dims, down⟩, m, served⟩
  rcases tamper with _ | ⟨n', e⟩
  · exact ⟨onInner (l.read q), quiet_onInner _, rfl, fun _ => rfl⟩
  · by_cases hn : n = n'
    · have hpick : (if n = n' then pure e else onInner (l.read q) : Action (Tap σ) Element) =
        pure e := if_pos hn
      exact ⟨pure e, quiet_pure e, congrFun hpick _, fun _ => congrFun hpick _⟩
    · have hpick : (if n = n' then pure e else onInner (l.read q) : Action (Tap σ) Element) =
        onInner (l.read q) := if_neg hn
      exact ⟨onInner (l.read q), quiet_onInner _, congrFun hpick _, fun _ => congrFun hpick _⟩

theorem notes_write (q : Request) (e : Element) : Notes (.write, q) ((link l).write q e) :=
  notes_request fun _ => quiet_onInner (l.write q e)

theorem quiet_throw (e : WireError) : Quiet (throw e : Action (Tap σ) α) :=
  ⟨fun t => ⟨t.inner, rfl⟩, fun _ _ => rfl⟩

theorem quiet_dimensions : Quiet (link l).dimensions := by
  refine quiet_of ?_
  rintro ⟨s, log, ⟨failAt, tamper, k, dims, down⟩, m, served⟩
  cases down with
  | true => exact ⟨throw (.transport "no dimensions"), quiet_throw _, rfl, fun _ => rfl⟩
  | false =>
    cases dims with
    | none => exact ⟨onInner l.dimensions, quiet_onInner _, rfl, fun _ => rfl⟩
    | some dims => exact ⟨pure dims, quiet_pure dims, rfl, fun _ => rfl⟩

end Links

end Tap

namespace Transfer

variable {t : Transfer τ χ} {tap : τ → Tap σ} {token : Option Nat → τ → τ}
  {entry : χ → Access × Request} {j : Nat} {cs : List χ} {s s' : τ}

/-- The transfer comes to chunk `j` of its plan `cs`, with `s'` behind the chunks before it. -/
structure Reaches (t : Transfer τ χ) (j : Nat) (cs : List χ) (s s' : τ) : Prop where
  moved : ∃ s₁, t.plan s = .ok cs s₁ ∧ Completes t.move (cs.take j) s₁ s'
  more : j < cs.length

/-- How a transfer ends under a token, against the one that blocks: as it does, where no token is
raised or the transfer does not come to the chunk at which it is; at that chunk, with nothing
requested and moved but the chunks before it, where it does. -/
structure Cancels (t : Transfer τ χ) (tap : τ → Tap σ) (token : Option Nat → τ → τ)
    (entry : χ → Access × Request) (blocking async : Action τ Unit) (s : τ) : Prop where
  never : async.outcome (token none s) = Prod.map id (token none) (blocking.outcome s)
  passed : ∀ j, (¬∃ cs s', t.Reaches j cs s s') →
    async.outcome (token (some j) s) = Prod.map id (token (some j)) (blocking.outcome s)
  stopped : ∀ j cs s', t.Reaches j cs s s' →
    async.outcome (token (some j) s) =
        (.error (.cancelled ((cs.take j).map t.size).sum), token (some j) s') ∧
      (tap s').log = (cs.take j).map entry ∧ (tap s').log <+: (tap (blocking.outcome s).2).log
  issued : ∀ j, j < (tap (blocking.outcome s).2).log.length → ∃ cs s', t.Reaches j cs s s'

structure Logs (t : Transfer τ χ) (tap : τ → Tap σ) (token : Option Nat → τ → τ)
    (entry : χ → Access × Request) : Prop where
  plan_keeps : ∀ served log, t.plan.Keeps fun s => (tap s).served = served ∧ (tap s).log = log
  move_ok : ∀ {c s s'}, t.move c s = .ok () s' →
    (tap s').served = (tap s).served + 1 ∧ (tap s').log = (tap s).log ++ [entry c]
  move_error : ∀ {c s e s'}, t.move c s = .error e s' →
    (tap s').log = (tap s).log ∨ (tap s').log = (tap s).log ++ [entry c]
  plan_token : ∀ k, t.plan.Respects (token k)
  move_token : ∀ c k, (t.move c).Respects (token k)
  tap_token : ∀ k s, tap (token k s) = (tap s).withToken k

namespace Logs

variable (h : t.Logs tap token entry)
include h

theorem planned {s₁ : τ} (hs : t.plan s = .ok cs s₁) :
    (tap s₁).served = (tap s).served ∧ (tap s₁).log = (tap s).log := by
  have hkept := h.plan_keeps _ _ s ⟨rfl, rfl⟩
  rwa [outcome, hs] at hkept

theorem completes (hcs : Completes t.move cs s s') :
    (tap s').served = (tap s).served + cs.length ∧
      (tap s').log = (tap s).log ++ cs.map entry := by
  induction hcs with
  | nil => exact ⟨rfl, (List.append_nil _).symm⟩
  | cons hc _ ih =>
    obtain ⟨hserved, hlog⟩ := h.move_ok hc
    rw [ih.1, ih.2, hserved, hlog, List.length_cons, List.map_cons, List.append_assoc,
      Nat.add_assoc, Nat.add_comm 1]
    exact ⟨rfl, rfl⟩

theorem transfer_log {cs : List χ} {done : Nat} {s out : τ}
    (hout : ((transfer (fun _ => false) t.size t.move done cs).outcome s).2 = out) :
    (tap s).log <+: (tap out).log ∧ ∀ j, (tap s).log.length + j < (tap out).log.length →
      j < cs.length ∧ ∃ s', Completes t.move (cs.take j) s s' := by
  induction cs generalizing s done with
  | nil =>
    cases hout
    exact ⟨List.prefix_refl _, fun j hj => absurd hj (Nat.not_lt.mpr (Nat.le_add_right ..))⟩
  | cons c cs ih =>
    rw [transfer_cons] at hout
    cases hc : t.move c s with
    | error e s' =>
      rw [outcome_bind_error hc] at hout
      cases hout
      rcases h.move_error hc with hlog | hlog
      · rw [hlog]
        exact ⟨List.prefix_refl _, fun j hj => absurd hj (by omega)⟩
      · rw [hlog]
        refine ⟨List.prefix_append .., fun j hj => ?_⟩
        rw [List.length_append, List.length_singleton] at hj
        cases (by omega : j = 0)
        exact ⟨Nat.succ_pos _, s, .nil⟩
    | ok u s' =>
      rw [outcome_bind_ok hc] at hout
      obtain ⟨hpre, hlater⟩ := ih hout
      obtain ⟨-, hlog⟩ := h.move_ok hc
      refine ⟨(hlog ▸ List.prefix_append ..).trans hpre, fun j hj => ?_⟩
      cases j with
      | zero => exact ⟨Nat.succ_pos _, s, .nil⟩
      | succ j =>
        rw [hlog, List.length_append, List.length_singleton] at hlater
        obtain ⟨hlt, u, hu⟩ := hlater j (by omega)
        exact ⟨Nat.succ_lt_succ hlt, u, .cons hc hu⟩

theorem going {s₁ : τ} (hserved : (tap s₁).served = 0) {j i : Nat} (hi : i < j) {s' : τ}
    (hle : i ≤ cs.length) (hcs : Completes t.move (cs.take i) s₁ s') :
    (tap (token (some j) s')).cancelled = false := by
  have hcount := (h.completes hcs).1
  rw [hserved, List.length_take_of_le hle, Nat.zero_add] at hcount
  rw [h.tap_token]
  simp only [Tap.cancelled, Tap.withToken, hcount, decide_eq_false_iff_not]
  omega

theorem run_through (k : Option Nat) (hgo : ∀ cs s₁, t.plan s = .ok cs s₁ → ∀ i < cs.length,
      ∀ s', Completes t.move (cs.take i) s₁ s' → (tap (token k s')).cancelled = false) :
    (t.run fun s => (tap s).cancelled).outcome (token k s) =
      Prod.map id (token k) ((t.run fun _ => false).outcome s) := by
  have hplan := h.plan_token k s
  cases hs : t.plan s with
  | error e s₁ =>
    rw [hs] at hplan
    rw [run, run, outcome_bind_error hs, outcome_bind_error hplan]
    rfl
  | ok cs s₁ =>
    rw [hs] at hplan
    rw [run, run, outcome_bind_ok hs, outcome_bind_ok hplan, outcome, outcome,
      transfer_through (fun c => h.move_token c k) (hgo cs s₁ hs) 0]
    cases transfer (fun _ => false) t.size t.move 0 cs s₁ <;> rfl

theorem run_never : (t.run fun s => (tap s).cancelled).outcome (token none s) =
    Prod.map id (token none) ((t.run fun _ => false).outcome s) := by
  refine h.run_through none fun _ _ _ _ _ s' _ => ?_
  rw [h.tap_token]
  rfl

theorem run_passed (hserved : (tap s).served = 0) (hno : ¬∃ cs s', t.Reaches j cs s s') :
    (t.run fun s => (tap s).cancelled).outcome (token (some j) s) =
      Prod.map id (token (some j)) ((t.run fun _ => false).outcome s) := by
  refine h.run_through (some j) fun cs s₁ hs i hi s' hcs => ?_
  rcases Nat.lt_or_ge i j with hij | hij
  · exact h.going ((h.planned hs).1.trans hserved) hij (Nat.le_of_lt hi) hcs
  · obtain ⟨u, hu⟩ := hcs.take j
    rw [List.take_take, Nat.min_eq_left hij] at hu
    exact absurd ⟨cs, u, ⟨s₁, hs, hu⟩, Nat.lt_of_le_of_lt hij hi⟩ hno

theorem run_stopped (hserved : (tap s).served = 0) (hreach : t.Reaches j cs s s') :
    (t.run fun s => (tap s).cancelled).outcome (token (some j) s) =
      (.error (.cancelled ((cs.take j).map t.size).sum), token (some j) s') := by
  obtain ⟨⟨s₁, hs, hcs⟩, hj⟩ := hreach
  have hfirst : (cs.take j).length = j := List.length_take_of_le (Nat.le_of_lt hj)
  have hplanned := (h.planned hs).1.trans hserved
  have hplan := h.plan_token (some j) s
  rw [hs] at hplan
  have hraised : (tap (token (some j) s')).cancelled = true := by
    have hcount := (h.completes hcs).1
    rw [hplanned, hfirst, Nat.zero_add] at hcount
    rw [h.tap_token]
    simp only [Tap.cancelled, Tap.withToken, hcount, Nat.le_refl, decide_true]
  have hbefore : ∀ i < (cs.take j).length, ∀ u, Completes t.move ((cs.take j).take i) s₁ u →
      (tap (token (some j) u)).cancelled = false := fun i hi _ hu =>
    h.going hplanned (hfirst ▸ hi) (Nat.le_of_lt hi) hu
  have hstopped : transfer (fun s => (tap s).cancelled) t.size t.move 0
      (cs.take j ++ cs[j] :: cs.drop (j + 1)) (token (some j) s₁) =
        .error (.cancelled (0 + ((cs.take j).map t.size).sum)) (token (some j) s') :=
    transfer_stopped (fun c => h.move_token c (some j)) hcs hbefore hraised cs[j] _ 0
  rw [← List.drop_eq_getElem_cons hj, List.take_append_drop, Nat.zero_add] at hstopped
  rw [run, outcome_bind_ok hplan, outcome, hstopped]

theorem log_stopped (hlog : (tap s).log = []) (hreach : t.Reaches j cs s s') :
    (tap s').log = (cs.take j).map entry ∧
      (tap s').log <+: (tap ((t.run fun _ => false).outcome s).2).log := by
  obtain ⟨⟨s₁, hs, hcs⟩, hj⟩ := hreach
  have hlogged := (h.completes hcs).2
  rw [(h.planned hs).2, hlog, List.nil_append] at hlogged
  have hrest : transfer (fun _ => false) t.size t.move 0 (cs.take j ++ cs.drop j) s₁ =
      transfer (fun _ => false) t.size t.move (0 + ((cs.take j).map t.size).sum) (cs.drop j) s' :=
    hcs.transfer_append (fun _ _ _ _ => rfl) _ 0
  rw [List.take_append_drop] at hrest
  refine ⟨hlogged, ?_⟩
  rw [run, outcome_bind_ok hs, outcome, hrest]
  exact (h.transfer_log rfl).1

theorem exists_reaches (hlog : (tap s).log = []) {j : Nat}
    (hj : j < (tap ((t.run fun _ => false).outcome s).2).log.length) :
    ∃ cs s', t.Reaches j cs s s' := by
  cases hs : t.plan s with
  | error e s₁ =>
    have hkept := h.plan_keeps _ _ s ⟨rfl, rfl⟩
    rw [outcome, hs] at hkept
    rw [run, outcome_bind_error hs, hkept.2, hlog] at hj
    exact absurd hj (Nat.not_lt_zero j)
  | ok cs s₁ =>
    rw [run, outcome_bind_ok hs] at hj
    have hstart : (tap s₁).log.length + j = j := by
      rw [(h.planned hs).2, hlog, List.length_nil, Nat.zero_add]
    obtain ⟨hlt, u, hu⟩ := (h.transfer_log rfl).2 j (hstart ▸ hj)
    exact ⟨cs, u, ⟨s₁, hs, hu⟩, hlt⟩

theorem cancels (hserved : (tap s).served = 0) (hlog : (tap s).log = []) :
    t.Cancels tap token entry (t.run fun _ => false) (t.run fun s => (tap s).cancelled) s where
  never := h.run_never
  passed _ := h.run_passed hserved
  stopped _ _ _ hreach := ⟨h.run_stopped hserved hreach, h.log_stopped hlog hreach⟩
  issued _ := h.exists_reaches hlog

end Logs

end Transfer

end TypedWire
