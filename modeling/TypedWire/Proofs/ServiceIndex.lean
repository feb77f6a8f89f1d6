import TypedWire.Proofs.Built
import TypedWire.Proofs.Children

namespace TypedWire

theorem Qualifies.unique {ns ns' name name' q : String} (h : Qualifies ns name q)
    (h' : Qualifies ns' name' q) : ns = ns' ∧ name = name' := by
  have hsplit := (splitName_iff.mpr h).symm.trans (splitName_iff.mpr h')
  cases hsplit
  exact ⟨rfl, rfl⟩

theorem filter_eq_singleton_iff {δ : Type} {name : δ → String} {ds : List δ}
    (hd : (ds.map name).Nodup) {q : String} {d : δ} :
    ds.filter (name · = q) = [d] ↔ d ∈ ds ∧ name d = q := by
  constructor
  · intro h
    have hmem : d ∈ ds.filter (name · = q) := h ▸ List.mem_singleton_self d
    simpa using hmem
  · rintro ⟨hmem, rfl⟩
    induction ds with
    | nil => cases hmem
    | cons a ds ih =>
      rw [List.map_cons, List.nodup_cons] at hd
      obtain ⟨hnew, hd⟩ := hd
      rcases List.mem_cons.mp hmem with rfl | hmem
      · have hrest : ds.filter (name · = name d) = [] := by
          simp only [List.filter_eq_nil_iff, decide_eq_true_eq]
          exact fun b hb hname => hnew (hname ▸ List.mem_map_of_mem hb)
        rw [List.filter_cons_of_pos (by simp), hrest]
      · have hne : name a ≠ name d := fun h => hnew (h ▸ List.mem_map_of_mem hmem)
        rw [List.filter_cons_of_neg (by simpa using hne), ih hd hmem]

namespace Service

section Index

variable {δ : Type} {owner : String} {typeName : δ → String} {ds : List δ}
  {seen out : List (String × δ)}

structure Lives (owner : String) (typeName : δ → String) (ds : List δ) : Prop where
  qualified : ∀ d ∈ ds, ∃ name, Qualifies owner name (typeName d)
  distinct : (ds.map typeName).Nodup

structure Entered (owner : String) (typeName : δ → String) (d : δ) (e : String × δ) : Prop where
  type_eq : e.2 = d
  qualified : Qualifies owner e.1 (typeName d)

theorem Entered.name_eq_iff {d d' : δ} {e e' : String × δ} (h : Entered owner typeName d e)
    (h' : Entered owner typeName d' e') : e.1 = e'.1 ↔ typeName d = typeName d' := by
  constructor
  · intro hname
    rw [h.qualified.eq_append, h'.qualified.eq_append, hname]
  · intro htype
    exact (h.qualified.unique (htype ▸ h'.qualified)).2

theorem any_name_iff {name : String} :
    seen.any (fun e => e.1 = name) ↔ name ∈ seen.map (·.1) := by
  simp

theorem index_eq_ok (hseen : (seen.map (·.1)).Nodup) : index owner typeName seen ds = .ok out ↔
    ∃ es, seen ++ es = out ∧ (out.map (·.1)).Nodup ∧
      List.Forall₂ (Entered owner typeName) ds es := by
  induction ds generalizing seen with
  | nil =>
    simp only [index, Except.ok.injEq, List.forall₂_nil_left_iff]
    constructor
    · rintro rfl
      exact ⟨[], List.append_nil _, hseen, rfl⟩
    · rintro ⟨_, rfl, -, rfl⟩
      exact (List.append_nil _).symm
  | cons d ds ih =>
    simp only [index, Checked.bind_eq_ok, Prod.exists, Checked.refuse_eq_ok, not_not, splitName_iff,
      any_name_iff]
    constructor
    · rintro ⟨_, name, hname, rfl, hnew, h⟩
      obtain ⟨es, hout, hd, hes⟩ := (ih (NamedChildren.nodup_snoc.mpr ⟨hnew, hseen⟩)).mp h
      rw [List.append_assoc] at hout
      exact ⟨(name, d) :: es, hout, hd, .cons ⟨rfl, hname⟩ hes⟩
    · rintro ⟨_, hout, hd, h⟩
      cases h with
      | @cons _ e _ es he hes =>
        obtain ⟨name, d'⟩ := e
        obtain rfl : d = d' := he.type_eq.symm
        have hout' : (seen ++ [(name, d)]) ++ es = out := by
          rw [List.append_assoc]
          exact hout
        have hinit : ((seen ++ [(name, d)]).map (·.1)).Nodup := by
          rw [← hout', List.map_append] at hd
          exact hd.sublist (List.sublist_append_left ..)
        exact ⟨owner, name, he.qualified, rfl, (NamedChildren.nodup_snoc.mp hinit).1,
          (ih hinit).mpr ⟨es, hout', hd, hes⟩⟩

theorem exists_index_iff : (∃ out, index owner typeName [] ds = .ok out) ↔
    Lives owner typeName ds := by
  have hempty : (([] : List (String × δ)).map (·.1)).Nodup := List.nodup_nil
  simp only [index_eq_ok hempty, List.nil_append, exists_eq_left]
  constructor
  · rintro ⟨es, hd, hes⟩
    refine ⟨fun d hmem => ?_, ?_⟩
    · obtain ⟨e, -, he⟩ := exists_of_forall₂ hes d hmem
      exact ⟨e.1, he.qualified⟩
    · rw [List.Nodup, List.pairwise_map] at hd ⊢
      exact pairwise_of_forall₂ (fun _ _ _ _ h h' => mt (h.name_eq_iff h').mpr) hes hd
  · rintro ⟨hq, hd⟩
    have hentry : ∀ d ∈ ds, ∃ e, Entered owner typeName d e := by
      intro d hmem
      obtain ⟨name, hname⟩ := hq d hmem
      exact ⟨(name, d), rfl, hname⟩
    obtain ⟨es, hes⟩ := exists_forall₂ hentry
    refine ⟨es, ?_, hes⟩
    rw [List.Nodup, List.pairwise_map] at hd ⊢
    exact pairwise_of_forall₂ (fun _ _ _ _ h h' => mt (h.name_eq_iff h').mp) hes.flip hd

theorem lookup_index (h : index owner typeName [] ds = .ok out) {name : String} {d : δ} :
    out.lookup name = some d ↔ ds.filter (typeName · = owner ++ "." ++ name) = [d] := by
  have hempty : (([] : List (String × δ)).map (·.1)).Nodup := List.nodup_nil
  obtain ⟨es, rfl, hnames, hes⟩ := (index_eq_ok hempty).mp h
  rw [List.nil_append] at hnames ⊢
  rw [NamedChildren.lookup_eq_some_iff hnames,
    filter_eq_singleton_iff (exists_index_iff.mp ⟨_, h⟩).distinct]
  constructor
  · intro hmem
    obtain ⟨_, hd, he⟩ := exists_of_forall₂ hes.flip _ hmem
    cases he.type_eq
    exact ⟨hd, he.qualified.eq_append⟩
  · rintro ⟨hd, hname⟩
    obtain ⟨⟨_, _⟩, hmem, he⟩ := exists_of_forall₂ hes d hd
    cases he.type_eq
    have happend := he.qualified.eq_append.symm.trans hname
    rwa [← (String.append_right_inj _).mp happend]

end Index

theorem make_eq_ok {owner : String} {structs : List StructType} {pods : List PodType}
    {named : List NamedType} {s : Service} : make owner structs pods named = .ok s ↔
      s.name = owner ∧ index owner StructType.typeName [] structs = .ok s.structs ∧
        index owner PodType.typeName [] pods = .ok s.pods ∧
        index owner NamedType.typeName [] named = .ok s.named := by
  simp only [make, Checked.bind_eq_ok, Checked.pure_eq_ok]
  constructor
  · rintro ⟨_, hstructs, _, hpods, _, hnamed, rfl⟩
    exact ⟨rfl, hstructs, hpods, hnamed⟩
  · rintro ⟨rfl, hstructs, hpods, hnamed⟩
    exact ⟨_, hstructs, _, hpods, _, hnamed, rfl⟩

/-- A service is made of any types of its namespace, no two of one role under one name, and of
nothing else. Of each role it has those types, each under its own local name, and a name is cut in
one way at most. -/
theorem make_indexes (owner : String) (structs : List StructType) (pods : List PodType)
    (named : List NamedType) :
    ((∃ s, make owner structs pods named = .ok s) ↔ Lives owner StructType.typeName structs ∧
      Lives owner PodType.typeName pods ∧ Lives owner NamedType.typeName named) ∧
    (∀ s, make owner structs pods named = .ok s → s.name = owner ∧ ∀ l,
      (∀ d, s.struct? l = some d ↔ structs.filter (·.typeName = owner ++ "." ++ l) = [d]) ∧
      (∀ d, s.pod? l = some d ↔ pods.filter (·.typeName = owner ++ "." ++ l) = [d]) ∧
      ∀ d, s.named? l = some d ↔ named.filter (·.typeName = owner ++ "." ++ l) = [d]) ∧
    (∀ q ns l, splitName q = .ok (ns, l) ↔
      q = ns ++ "." ++ l ∧ ns ≠ "" ∧ l ≠ "" ∧ '.' ∉ l.toList) ∧
    ∀ q ns ns' l l', Qualifies ns l q → Qualifies ns' l' q → ns = ns' ∧ l = l' := by
  refine ⟨?_, ?_, ?_, fun _ _ _ _ _ => Qualifies.unique⟩
  · simp only [← exists_index_iff, make_eq_ok]
    constructor
    · rintro ⟨s, -, hstructs, hpods, hnamed⟩
      exact ⟨⟨_, hstructs⟩, ⟨_, hpods⟩, ⟨_, hnamed⟩⟩
    · rintro ⟨⟨ss, hstructs⟩, ⟨ps, hpods⟩, ⟨ns, hnamed⟩⟩
      exact ⟨⟨owner, ss, ps, ns⟩, rfl, hstructs, hpods, hnamed⟩
  · intro s h
    obtain ⟨hname, hstructs, hpods, hnamed⟩ := make_eq_ok.mp h
    exact ⟨hname, fun l => ⟨fun d => lookup_index hstructs, fun d => lookup_index hpods,
      fun d => lookup_index hnamed⟩⟩
  · intro q ns l
    rw [splitName_iff]
    exact ⟨fun ⟨hq, hns, hl, hdot⟩ => ⟨hq, hns, hl, hdot⟩,
      fun ⟨hq, hns, hl, hdot⟩ => ⟨hq, hns, hl, hdot⟩⟩

theorem make_indexes_geo : ∃ s,
    make "geo" [⟨"geo.Point", []⟩, Geo.track] [Geo.point] [] = .ok s ∧
      s.struct? "Point" = some ⟨"geo.Point", []⟩ ∧ s.pod? "Point" = some Geo.point ∧
      s.named? "Point" = none ∧ ¬∃ s, make "geo" [⟨"geo.sea.Depth", []⟩] [] [] = .ok s := by
  obtain ⟨-, hfind, -⟩ := make_indexes "geo" [⟨"geo.Point", []⟩, Geo.track] [Geo.point] []
  obtain ⟨hdepth, -, -, hcut⟩ := make_indexes "geo" [⟨"geo.sea.Depth", []⟩] [] []
  have h : make "geo" [⟨"geo.Point", []⟩, Geo.track] [Geo.point] [] = .ok _ := rfl
  obtain ⟨-, hpoint⟩ := hfind _ h
  obtain ⟨hstruct, hpod, -⟩ := hpoint "Point"
  refine ⟨_, h, (hstruct _).mpr (by decide), (hpod _).mpr (by decide), rfl, ?_⟩
  rw [hdepth]
  rintro ⟨⟨hq, -⟩, -⟩
  obtain ⟨l, hl⟩ := hq _ (List.mem_singleton_self _)
  have hsea : Qualifies "geo.sea" "Depth" "geo.sea.Depth" := splitName_iff.mp rfl
  exact absurd (hcut _ _ _ _ _ hsea hl).1 (by decide)

end Service

end TypedWire
