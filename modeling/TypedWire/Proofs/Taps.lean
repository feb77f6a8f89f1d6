import TypedWire.Proofs.Transfers

namespace TypedWire

variable {ρ σ α : Type}

namespace Tap

def seen (s : σ) (log : List (Access × Request)) (served : Nat) : Tap σ :=
  ⟨s, log, .none, log.length, served⟩

variable {l : Link σ} {s s' : σ} {log : List (Access × Request)} {served : Nat}
  {access : Access} {q : Request} {x : α} {e : WireError}

theorem onInner_ok {a : Action σ α} (h : a s = .ok x s') :
    onInner a (seen s log served) = .ok x (seen s' log served) := by
  simp only [onInner, seen, h]

theorem onInner_error {a : Action σ α} (h : a s = .error e s') :
    onInner a (seen s log served) = .error e (seen s' log served) := by
  simp only [onInner, seen, h]

section Requests

variable {act : Nat → Action (Tap σ) α}

theorem request_ok (h : act log.length (seen s (log ++ [(access, q)]) served) =
      .ok x (seen s' (log ++ [(access, q)]) served)) :
    request access q act (seen s log served) =
      .ok x (seen s' (log ++ [(access, q)]) (served + 1)) := by
  simp only [seen, List.length_append, List.length_singleton] at h ⊢
  simp only [request, bind, EStateM.bind, get, getThe, MonadStateOf.get, EStateM.get, set,
    EStateM.set, Faults.none, reduceCtorEq, if_false, pure, EStateM.pure] at h ⊢
  rw [h]
  rfl

theorem request_error (h : act log.length (seen s (log ++ [(access, q)]) served) =
      .error e (seen s' (log ++ [(access, q)]) served)) :
    request access q act (seen s log served) =
      .error e (seen s' (log ++ [(access, q)]) served) := by
  simp only [seen, List.length_append, List.length_singleton] at h ⊢
  simp only [request, bind, EStateM.bind, get, getThe, MonadStateOf.get, EStateM.get, set,
    EStateM.set, Faults.none, reduceCtorEq, if_false, pure, EStateM.pure] at h ⊢
  rw [h]

end Requests

theorem read_ok {x : Element} (h : l.read q s = .ok x s') :
    (link l).read q (seen s log served) = .ok x (seen s' (log ++ [(.read, q)]) (served + 1)) := by
  have hinner : onInner (l.read q) (seen s (log ++ [(.read, q)]) served) = _ := onInner_ok h
  simp only [link]
  exact request_ok hinner

theorem read_error (h : l.read q s = .error e s') :
    (link l).read q (seen s log served) = .error e (seen s' (log ++ [(.read, q)]) served) := by
  have hinner : onInner (l.read q) (seen s (log ++ [(.read, q)]) served) = _ := onInner_error h
  simp only [link]
  exact request_error hinner

theorem write_ok {x : Element} (h : l.write q x s = .ok () s') :
    (link l).write q x (seen s log served) =
      .ok () (seen s' (log ++ [(.write, q)]) (served + 1)) := by
  have hinner : onInner (l.write q x) (seen s (log ++ [(.write, q)]) served) = _ := onInner_ok h
  simp only [link]
  exact request_ok hinner

theorem write_error {x : Element} (h : l.write q x s = .error e s') :
    (link l).write q x (seen s log served) = .error e (seen s' (log ++ [(.write, q)]) served) := by
  have hinner : onInner (l.write q x) (seen s (log ++ [(.write, q)]) served) = _ := onInner_error h
  simp only [link]
  exact request_error hinner

def At (s : σ) (t : Tap σ) : Prop := ∃ log served, t = seen s log served

theorem at_make (s : σ) : At s (make s) := ⟨[], 0, rfl⟩

section At

variable {t t' : Tap σ}

theorem At.of_read {x : Element} (ht : At s t) (h : (link l).read q t = .ok x t') :
    ∃ s', l.read q s = .ok x s' ∧ At s' t' := by
  obtain ⟨log, served, rfl⟩ := ht
  cases hread : l.read q s with
  | ok y s' =>
    cases (read_ok hread).symm.trans h
    exact ⟨s', rfl, _, _, rfl⟩
  | error e s' => cases (read_error hread).symm.trans h

theorem At.of_write {x : Element} (ht : At s t) (h : (link l).write q x t = .ok () t') :
    ∃ s', l.write q x s = .ok () s' ∧ At s' t' := by
  obtain ⟨log, served, rfl⟩ := ht
  cases hwrite : l.write q x s with
  | ok _ s' =>
    cases (write_ok hwrite).symm.trans h
    exact ⟨s', rfl, _, _, rfl⟩
  | error e s' => cases (write_error hwrite).symm.trans h

end At

end Tap

namespace Link

structure Records (l : Link σ) (inner : Link ρ) (state : ρ → List (Access × Request) → σ)
    (log : List (Access × Request)) : Prop where
  dimensions : ∀ {r r' dims}, inner.dimensions r = .ok dims r' →
    l.dimensions (state r log) = .ok dims (state r' log)
  read : ∀ {r r' q e}, inner.read q r = .ok e r' →
    l.read q (state r log) = .ok e (state r' (log ++ [(.read, q)]))
  write : ∀ {r r' q e}, inner.write q e r = .ok () r' →
    l.write q e (state r log) = .ok () (state r' (log ++ [(.write, q)]))

theorem records_self (l : Link σ) (log : List (Access × Request)) :
    l.Records l (fun s _ => s) log := ⟨id, id, id⟩

theorem records_tap (l : Link σ) (log : List (Access × Request)) :
    (Tap.link l).Records l (fun s log => .seen s log log.length) log where
  dimensions h := Tap.onInner_ok h
  read h := by
    rw [List.length_append]
    exact Tap.read_ok h
  write h := by
    rw [List.length_append]
    exact Tap.write_ok h

end Link

def Proxy.tapped (p : Proxy σ α) : Proxy (Tap σ) α := ⟨Tap.link p.link, p.codec, p.limit⟩

end TypedWire
