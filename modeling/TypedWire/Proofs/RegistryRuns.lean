import TypedWire.Proofs.Built
import TypedWire.Session

namespace TypedWire

namespace Session

theorem outcome_register (s : Service) (st : Session) :
    (register s).outcome st =
      match st.registry.register s with
      | .ok r => (.ok (), { st with scope := { st.scope with registry := r } })
      | .error e => (.error e, st) := by
  have hrun : register s st =
      match st.registry.register s with
      | .ok r => .ok () { st with scope := { st.scope with registry := r } }
      | .error e => .error e st := by
    change (Action.ofChecked (st.registry.register s) >>= _) st = _
    cases st.registry.register s <;> rfl
  rw [Action.outcome, hrun]
  cases st.registry.register s <;> rfl

/-- What comes of register calls one after the other on a new registry: the answer to each, and the
session behind them. -/
inductive Registers : List (Service × Checked Unit) → Session → Prop
  | new : Registers [] .empty
  | call {log st} (s) : Registers log st →
      Registers (log ++ [(s, ((register s).outcome st).1)]) ((register s).outcome st).2

def accepted (log : List (Service × Checked Unit)) : List Service :=
  log.filterMap fun (s, answer) =>
    match answer with
    | .ok () => some s
    | .error _ => none

structure Holds (log : List (Service × Checked Unit)) (r : Registry) : Prop where
  services_eq : r.services = accepted log
  names_ne : ∀ s ∈ accepted log, s.name ≠ ""
  distinct : ((accepted log).map (·.name)).Nodup

/-- One point of a run: which calls it would accept, and what every query answers there. -/
structure AppendOnly (log : List (Service × Checked Unit)) (st : Session) : Prop where
  accepts_iff : ∀ s, ((register s).outcome st).1 = .ok () ↔
    s.name ≠ "" ∧ ∀ a ∈ accepted log, a.name ≠ s.name
  rejected : ∀ s e, ((register s).outcome st).1 = .error e → ((register s).outcome st).2 = st
  service_ok_iff : ∀ ns s, st.registry.service ns = .ok s ↔
    (accepted log).find? (·.name = ns) = some s
  service_error : ∀ ns e, st.registry.service ns = .error e → e = .serviceTypeNotFound ns
  registered_iff : ∀ ns, (st.registry.get? ns).isSome ↔ ∃ s, st.registry.service ns = .ok s
  resolve_ok_iff : ∀ q ns name, st.registry.resolve q = .ok (ns, name) ↔
    Qualifies ns name q ∧ ∃ s, st.registry.service ns = .ok s
  resolve_error : ∀ q e, st.registry.resolve q = .error e → e = .serviceTypeNotFound q
  names_sorted : st.registry.names.Pairwise (· < ·)
  mem_names_iff : ∀ ns, ns ∈ st.registry.names ↔ ∃ s ∈ accepted log, s.name = ns

end Session

namespace Registry

variable {r r' : Registry} {s : Service} {ns : String}

theorem get?_isSome_iff : (r.get? ns).isSome ↔ ∃ s ∈ r.services, s.name = ns := by
  simp [get?]

theorem register_eq_ok : r.register s = .ok r' ↔
    s.name ≠ "" ∧ (∀ a ∈ r.services, a.name ≠ s.name) ∧ ⟨r.services ++ [s]⟩ = r' := by
  simp only [register, Checked.refuse_eq_ok, get?_isSome_iff, not_exists, not_and,
    Except.ok.injEq, ne_eq]

theorem service_eq_ok : r.service ns = .ok s ↔ r.get? ns = some s := by
  unfold service
  cases r.get? ns <;> simp

theorem eq_of_service {e : WireError} (h : r.service ns = .error e) :
    e = .serviceTypeNotFound ns := by
  unfold service at h
  split at h
  · cases h
  · cases h
    rfl

theorem resolve_eq_ok {q name : String} : r.resolve q = .ok (ns, name) ↔
    Qualifies ns name q ∧ (r.get? ns).isSome := by
  simp only [resolve, Checked.bind_eq_ok, Prod.exists, Checked.guard_eq_ok, Checked.pure_eq_ok,
    Prod.mk.injEq, splitName_iff]
  constructor
  · rintro ⟨_, _, hq, hns, rfl, rfl⟩
    exact ⟨hq, hns⟩
  · rintro ⟨hq, hns⟩
    exact ⟨ns, name, hq, hns, rfl, rfl⟩

theorem eq_of_resolve {q : String} {e : WireError} (h : r.resolve q = .error e) :
    e = .serviceTypeNotFound q := by
  rcases Checked.bind_eq_error.mp h with hq | ⟨⟨ns, name⟩, -, h⟩
  · exact eq_of_splitName hq
  · dsimp only at h
    split at h
    · cases h
    · cases h
      rfl

theorem mem_names : ns ∈ r.names ↔ ∃ s ∈ r.services, s.name = ns := by
  rw [names, List.mem_mergeSort, List.mem_map]

theorem names_sorted (h : (r.services.map (·.name)).Nodup) : r.names.Pairwise (· < ·) := by
  have hperm : r.names.Perm (r.services.map (·.name)) := List.mergeSort_perm ..
  have hle : r.names.Pairwise (· ≤ ·) := by
    have hsort := @List.pairwise_mergeSort String (fun a b => decide (a ≤ b))
      (fun a b c hab hbc => by
        rw [decide_eq_true_eq] at hab hbc ⊢
        exact Std.le_trans hab hbc)
      (fun a b => by simpa using Std.le_total (a := a) (b := b)) (r.services.map (·.name))
    exact hsort.imp fun hab => of_decide_eq_true hab
  exact (hle.and (hperm.nodup_iff.mpr h)).imp fun hab => Std.lt_of_le_of_ne hab.1 hab.2

end Registry

namespace Session

variable {log : List (Service × Checked Unit)} {st : Session} {s : Service}

theorem accepted_call (log : List (Service × Checked Unit)) (s : Service) (answer : Checked Unit) :
    accepted (log ++ [(s, answer)]) =
      match answer with
      | .ok () => accepted log ++ [s]
      | .error _ => accepted log := by
  cases answer <;> simp [accepted]

theorem register_accepts : ((register s).outcome st).1 = .ok () ↔
    s.name ≠ "" ∧ ∀ a ∈ st.registry.services, a.name ≠ s.name := by
  rw [outcome_register]
  cases h : st.registry.register s with
  | ok r =>
    obtain ⟨hne, hnew, -⟩ := Registry.register_eq_ok.mp h
    exact ⟨fun _ => ⟨hne, hnew⟩, fun _ => rfl⟩
  | error e =>
    refine ⟨nofun, fun ⟨hne, hnew⟩ => ?_⟩
    rw [Registry.register_eq_ok.mpr ⟨hne, hnew, rfl⟩] at h
    cases h

theorem register_rejects {e : WireError} (h : ((register s).outcome st).1 = .error e) :
    ((register s).outcome st).2 = st := by
  rw [outcome_register] at h ⊢
  cases hr : st.registry.register s with
  | ok r =>
    rw [hr] at h
    cases h
  | error e => rfl

theorem Holds.call (h : Holds log st.registry) (s : Service) :
    Holds (log ++ [(s, ((register s).outcome st).1)]) ((register s).outcome st).2.registry := by
  rw [outcome_register]
  cases hr : st.registry.register s with
  | error e =>
    have hlog : accepted (log ++ [(s, .error e)]) = accepted log := accepted_call log s _
    exact ⟨hlog ▸ h.services_eq, hlog ▸ h.names_ne, hlog ▸ h.distinct⟩
  | ok r =>
    obtain ⟨hne, hnew, rfl⟩ := Registry.register_eq_ok.mp hr
    have hlog : accepted (log ++ [(s, .ok ())]) = accepted log ++ [s] := accepted_call log s _
    rw [h.services_eq] at hnew
    refine ⟨?_, ?_, ?_⟩
    · rw [hlog, ← h.services_eq]
      rfl
    · rw [hlog]
      exact List.forall_mem_append.mpr ⟨h.names_ne, List.forall_mem_singleton.mpr hne⟩
    · rw [hlog, List.map_append, List.nodup_append]
      refine ⟨h.distinct, List.pairwise_singleton .., fun n hn m hm => ?_⟩
      obtain ⟨a, ha, rfl⟩ := List.mem_map.mp hn
      rw [List.map_singleton, List.mem_singleton] at hm
      exact hm ▸ hnew a ha

theorem Registers.holds (h : Registers log st) : Holds log st.registry := by
  induction h with
  | new => exact ⟨rfl, nofun, List.nodup_nil⟩
  | call s _ ih => exact ih.call s

/-- At every point of every run of register calls the registry has what was accepted so far, each
service under its name, and a refused call leaves no trace. -/
theorem registers_appendOnly (h : Registers log st) : AppendOnly log st := by
  have hholds := h.holds
  have hget : ∀ ns, st.registry.get? ns = (accepted log).find? (·.name = ns) := by
    intro ns
    rw [Registry.get?, hholds.services_eq]
  have hservice : ∀ ns, (st.registry.get? ns).isSome ↔ ∃ s, st.registry.service ns = .ok s := by
    intro ns
    simp only [Registry.service_eq_ok, Option.isSome_iff_exists]
  constructor
  case accepts_iff =>
    intro s
    rw [register_accepts, hholds.services_eq]
  case rejected => exact fun s e => register_rejects
  case service_ok_iff =>
    intro ns s
    rw [Registry.service_eq_ok, hget]
  case service_error => exact fun ns e => Registry.eq_of_service
  case registered_iff => exact hservice
  case resolve_ok_iff =>
    intro q ns name
    rw [Registry.resolve_eq_ok, hservice]
  case resolve_error => exact fun q e => Registry.eq_of_resolve
  case names_sorted => exact Registry.names_sorted (hholds.services_eq ▸ hholds.distinct)
  case mem_names_iff =>
    intro ns
    rw [Registry.mem_names, hholds.services_eq]

theorem registers_appendOnly_geo : ∃ log st, Registers log st ∧
    accepted log = [Geo.service, ⟨"geo.sea", [], [], []⟩] ∧
    st.registry.service "geo" = .ok Geo.service ∧
    st.registry.resolve "geo.sea.Depth" = .ok ("geo.sea", "Depth") ∧
    ((register ⟨"geo.sea", [], [], []⟩).outcome st).1 ≠ .ok () := by
  have hrun := (Registers.new.call Geo.service).call ⟨"geo", [], [], []⟩ |>.call
    ⟨"geo.sea", [], [], []⟩
  have h := registers_appendOnly hrun
  refine ⟨_, _, hrun, rfl, ?_, ?_, ?_⟩
  · exact (h.service_ok_iff _ _).mpr rfl
  · refine (h.resolve_ok_iff "geo.sea.Depth" "geo.sea" "Depth").mpr ⟨splitName_iff.mp rfl, ?_⟩
    exact ⟨⟨"geo.sea", [], [], []⟩, (h.service_ok_iff _ _).mpr rfl⟩
  · rw [ne_eq, h.accepts_iff]
    rintro ⟨-, hnew⟩
    exact hnew ⟨"geo.sea", [], [], []⟩ (List.mem_cons_of_mem _ List.mem_cons_self) rfl

end Session

end TypedWire
