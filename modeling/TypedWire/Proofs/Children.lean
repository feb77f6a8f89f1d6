import TypedWire.Proofs.Results
import TypedWire.Block
import Mathlib.Data.List.Nodup

namespace TypedWire

variable {α β : Type}

@[simp] theorem position_eq_ok {n : Nat} {i : Int32} :
    position n = .ok i ↔ n < positionBound ∧ Int32.ofNat n = i := by
  simp [position]

theorem packEachFrom_positions {pack : Int32 → α → Checked Element}
    (hkey : ∀ i x e, pack i x = .ok e → e.key = .index i) {n : Nat} {xs : List α}
    {es : List Element} (h : packEachFrom n pack xs = .ok es) :
    expectPositionsFrom n (es.map (·.key)) = .ok () ∧
      List.Forall₂ (fun x e => ∃ i, pack i x = .ok e) xs es := by
  induction xs generalizing n es with
  | nil =>
    cases h
    exact ⟨rfl, .nil⟩
  | cons x xs ih =>
    simp only [packEachFrom, Checked.bind_eq_ok, Checked.pure_eq_ok] at h
    obtain ⟨i, hi, e, he, es, hes, rfl⟩ := h
    obtain ⟨hpos, hall⟩ := ih hes
    refine ⟨?_, .cons ⟨i, he⟩ hall⟩
    simp only [List.map_cons, expectPositionsFrom, Checked.bind_eq_ok]
    exact ⟨i, hi, by rw [hkey i x e he, if_pos rfl, hpos]⟩

theorem length_of_expectPositionsFrom {n : Nat} (hn : n ≤ positionBound) {ids : List Key}
    (h : expectPositionsFrom n ids = .ok ()) : n + ids.length ≤ positionBound := by
  induction ids generalizing n with
  | nil => exact hn
  | cons i ids ih =>
    simp only [expectPositionsFrom, Checked.bind_eq_ok, position_eq_ok, Checked.guard_eq_ok] at h
    obtain ⟨_, ⟨hlt, -⟩, -, htail⟩ := h
    have := ih hlt htail
    rw [List.length_cons]
    omega

theorem expectPositionsFrom_eq_ok {m : Nat} {ids : List Key} : expectPositionsFrom m ids = .ok () ↔
    ∀ n i, ids[n]? = some i → m + n < positionBound ∧ i = .index (Int32.ofNat (m + n)) := by
  induction ids generalizing m with
  | nil => simp [expectPositionsFrom]
  | cons i ids ih =>
    simp only [expectPositionsFrom, Checked.bind_eq_ok, position_eq_ok, Checked.guard_eq_ok, ih]
    constructor
    · rintro ⟨_, ⟨hm, rfl⟩, rfl, htail⟩ n j hj
      cases n with
      | zero =>
        cases hj
        exact ⟨hm, rfl⟩
      | succ n => simpa only [Nat.add_right_comm, Nat.add_assoc] using htail n j hj
    · intro h
      obtain ⟨hm, hi⟩ := h 0 i rfl
      refine ⟨_, ⟨hm, rfl⟩, hi, fun n j hj => ?_⟩
      simpa only [Nat.add_right_comm, Nat.add_assoc] using h (n + 1) j hj

theorem expectPositionsFrom_displaced {m n : Nat} {ids : List Key} {i : Key}
    (hn : m + n < positionBound) (hhere : ids[n]? = some i)
    (hbefore : ∀ j < n, ids[j]? = some (.index (Int32.ofNat (m + j))))
    (hi : i ≠ .index (Int32.ofNat (m + n))) :
    expectPositionsFrom m ids = .error (.positionMismatch (m + n) i.text) := by
  induction ids generalizing m n with
  | nil => simp at hhere
  | cons j ids ih =>
    have hm : position m = .ok (Int32.ofNat m) := position_eq_ok.mpr ⟨by omega, rfl⟩
    rw [expectPositionsFrom, hm]
    cases n with
    | zero =>
      cases hhere
      exact if_neg hi
    | succ n =>
      have hj : j = .index (Int32.ofNat m) := Option.some.inj (hbefore 0 (Nat.succ_pos n))
      have hsucc : m + (n + 1) = m + 1 + n := by omega
      rw [hsucc] at hn hi ⊢
      refine (if_pos hj).trans (ih hn hhere (fun k hk => ?_) hi)
      rw [Nat.add_assoc, Nat.add_comm 1 k]
      exact hbefore (k + 1) (Nat.succ_lt_succ hk)

theorem packEachFrom_mono {pack pack' : Int32 → α → Checked Element} {xs : List α}
    (hpack : ∀ x ∈ xs, ∀ i e, pack i x = .ok e → pack' i x = .ok e) {n : Nat} {es : List Element}
    (h : packEachFrom n pack xs = .ok es) : packEachFrom n pack' xs = .ok es := by
  induction xs generalizing n es with
  | nil => exact h
  | cons x xs ih =>
    simp only [packEachFrom, Checked.bind_eq_ok, Checked.pure_eq_ok] at h ⊢
    obtain ⟨i, hi, e, he, es, hes, rfl⟩ := h
    exact ⟨i, hi, e, hpack x List.mem_cons_self i e he, es,
      ih (fun y hy => hpack y (List.mem_cons_of_mem _ hy)) hes, rfl⟩

theorem packEachFrom_map (pack : Int32 → β → Checked Element) (f : α → β) (n : Nat) (xs : List α) :
    packEachFrom n pack (xs.map f) = packEachFrom n (fun i x => pack i (f x)) xs := by
  induction xs generalizing n with
  | nil => rfl
  | cons x xs ih => simp only [List.map_cons, packEachFrom, ih]

theorem packEachFrom_mem {pack : Int32 → α → Checked Element} {n : Nat} {xs : List α}
    {es : List Element} (h : packEachFrom n pack xs = .ok es) :
    ∀ x ∈ xs, ∃ i e, pack i x = .ok e := by
  induction xs generalizing n es with
  | nil => nofun
  | cons x xs ih =>
    simp only [packEachFrom, Checked.bind_eq_ok, Checked.pure_eq_ok] at h
    obtain ⟨i, -, e, he, tail, htail, -⟩ := h
    exact List.forall_mem_cons.mpr ⟨⟨i, e, he⟩, ih htail⟩

theorem length_of_packEachFrom {pack : Int32 → α → Checked Element} {n : Nat}
    (hn : n ≤ positionBound) {xs : List α} {es : List Element}
    (h : packEachFrom n pack xs = .ok es) : n + xs.length ≤ positionBound := by
  induction xs generalizing n es with
  | nil => exact hn
  | cons x xs ih =>
    simp only [packEachFrom, Checked.bind_eq_ok, position_eq_ok] at h
    obtain ⟨_, ⟨hlt, -⟩, _, -, _, hes, -⟩ := h
    have := ih hlt hes
    rw [List.length_cons]
    omega

theorem exists_packEachFrom {pack : Int32 → α → Checked Element} {xs : List α}
    (hpack : ∀ x ∈ xs, ∀ i, ∃ e, pack i x = .ok e) {n : Nat} (hn : n + xs.length ≤ positionBound) :
    ∃ es, packEachFrom n pack xs = .ok es := by
  induction xs generalizing n with
  | nil => exact ⟨[], rfl⟩
  | cons x xs ih =>
    rw [List.length_cons] at hn
    obtain ⟨e, he⟩ := hpack x List.mem_cons_self (Int32.ofNat n)
    obtain ⟨es, hes⟩ := ih (fun y hy => hpack y (List.mem_cons_of_mem _ hy)) (n := n + 1) (by omega)
    refine ⟨e :: es, ?_⟩
    simp only [packEachFrom, Checked.bind_eq_ok, Checked.pure_eq_ok]
    exact ⟨_, position_eq_ok.mpr ⟨by omega, rfl⟩, e, he, es, hes, rfl⟩

@[simp] theorem least?_eq_none_iff {xs : List String} : least? xs = none ↔ xs = [] := by
  cases xs <;> simp [least?]

namespace NamedChildren

def listed (entries : List (String × α)) : List (Key × α) :=
  entries.map fun e => (.name e.1, e.2)

theorem cons_eq_listed {k : Key} {x : α} {xs : List (Key × α)} {entries : List (String × α)} :
    (k, x) :: xs = listed entries ↔
      ∃ s rest, k = .name s ∧ xs = listed rest ∧ (s, x) :: rest = entries := by
  constructor
  · intro h
    cases entries with
    | nil => cases h
    | cons e rest =>
      obtain ⟨⟨rfl, rfl⟩, rfl⟩ : (k = .name e.1 ∧ x = e.2) ∧ xs = listed rest := by
        simpa [listed] using h
      exact ⟨e.1, rest, rfl, rfl, rfl⟩
  · rintro ⟨s, rest, rfl, rfl, rfl⟩
    rfl

theorem extend_name {seen : List (String × α)} {s : String} {x : α} {xs : List (Key × α)}
    {c : NamedChildren α} : extend seen ((.name s, x) :: xs) = .ok c ↔
      s ∉ seen.map (·.1) ∧ extend (seen ++ [(s, x)]) xs = .ok c := by
  simp [extend]

theorem nodup_snoc {seen : List (String × α)} {s : String} {x : α} :
    ((seen ++ [(s, x)]).map (·.1)).Nodup ↔ s ∉ seen.map (·.1) ∧ (seen.map (·.1)).Nodup := by
  simp only [List.map_append, List.map_cons, List.map_nil, List.nodup_append, List.mem_singleton,
    forall_eq]
  constructor
  · rintro ⟨hs, -, hne⟩
    exact ⟨fun h => hne s h rfl, hs⟩
  · rintro ⟨hfresh, hs⟩
    exact ⟨hs, by simp, fun t ht h => hfresh (h ▸ ht)⟩

theorem extend_eq_ok {seen : List (String × α)} (hs : (seen.map (·.1)).Nodup) {xs : List (Key × α)}
    {c : NamedChildren α} :
    extend seen xs = .ok c ↔
      ∃ new, xs = listed new ∧ c = ⟨seen ++ new⟩ ∧ ((seen ++ new).map (·.1)).Nodup := by
  induction xs generalizing seen with
  | nil =>
    constructor
    · intro h
      cases h
      exact ⟨[], rfl, by simp, by simpa using hs⟩
    · rintro ⟨new, hnew, rfl, -⟩
      rw [List.map_eq_nil_iff.mp hnew.symm, List.append_nil]
      rfl
  | cons x xs ih =>
    rcases x with ⟨s | i, x⟩
    · rw [extend_name]
      constructor
      · rintro ⟨hfresh, h⟩
        obtain ⟨new, rfl, rfl, hd⟩ := (ih (nodup_snoc.mpr ⟨hfresh, hs⟩)).mp h
        exact ⟨(s, x) :: new, rfl, by simp, by simpa using hd⟩
      · rintro ⟨new, hnew, rfl, hd⟩
        obtain ⟨_, rest, hk, rfl, rfl⟩ := cons_eq_listed.mp hnew
        cases hk
        have hd' : (((seen ++ [(s, x)]) ++ rest).map (·.1)).Nodup := by simpa using hd
        have hinit : ((seen ++ [(s, x)]).map (·.1)).Nodup := by
          rw [List.map_append] at hd'
          exact hd'.sublist (List.sublist_append_left ..)
        exact ⟨(nodup_snoc.mp hinit).1, (ih hinit).mpr ⟨rest, rfl, by simp, hd'⟩⟩
    · constructor
      · intro h
        cases h
      · rintro ⟨new, hnew, -⟩
        obtain ⟨_, _, hk, -⟩ := cons_eq_listed.mp hnew
        cases hk

theorem ofList_eq_ok {xs : List (Key × α)} {c : NamedChildren α} :
    ofList xs = .ok c ↔ xs = listed c.entries ∧ (c.entries.map (·.1)).Nodup := by
  rw [ofList, extend_eq_ok (by simp)]
  constructor
  · rintro ⟨new, rfl, rfl, hd⟩
    exact ⟨rfl, hd⟩
  · rintro ⟨rfl, hd⟩
    exact ⟨c.entries, rfl, rfl, hd⟩

theorem take_eq_ok {c c' : NamedChildren α} {s : String} {x : α} :
    c.take s = .ok (x, c') ↔
      c.entries.lookup s = some x ∧ c' = ⟨c.entries.filter (·.1 ≠ s)⟩ := by
  unfold take
  cases h : c.entries.lookup s with
  | none => simp
  | some y => simp [eq_comm]

theorem take_cons {s : String} {x : α} {rest : List (String × α)} (h : s ∉ rest.map (·.1)) :
    take ⟨(s, x) :: rest⟩ s = .ok (x, ⟨rest⟩) := by
  refine take_eq_ok.mpr ⟨by simp, ?_⟩
  have hrest : ∀ e ∈ rest, e.1 ≠ s := fun e he hs => h (hs ▸ List.mem_map_of_mem he)
  simpa using (List.filter_eq_self.mpr fun e he => by simpa using hrest e he).symm

@[simp] theorem expectNone_eq_ok {c : NamedChildren α} :
    c.expectNone = .ok () ↔ c.entries = [] := by
  unfold expectNone
  cases h : least? (c.entries.map (·.1)) with
  | none => simpa using h
  | some s =>
    constructor
    · intro hc
      cases hc
    · intro hc
      rw [hc] at h
      cases h

theorem lookup_take {c c' : NamedChildren α} {s t : String} {x : α} (h : c.take s = .ok (x, c'))
    (hne : t ≠ s) : c'.entries.lookup t = c.entries.lookup t := by
  obtain ⟨-, rfl⟩ := take_eq_ok.mp h
  generalize c.entries = entries
  induction entries with
  | nil => rfl
  | cons e entries ih =>
    rcases e with ⟨u, y⟩
    by_cases hu : u = s
    · subst hu
      simpa [List.lookup_cons, beq_eq_false_iff_ne.mpr hne] using ih
    · simp only [ne_eq, hu, not_false_eq_true, decide_true, List.filter_cons_of_pos,
        List.lookup_cons] at ih ⊢
      rw [ih]

theorem lookup_take_self {c c' : NamedChildren α} {s : String} {x : α}
    (h : c.take s = .ok (x, c')) : c'.entries.lookup s = none := by
  obtain ⟨-, rfl⟩ := take_eq_ok.mp h
  rw [List.lookup_eq_none_iff]
  intro e he
  have hne : e.1 ≠ s := of_decide_eq_true (List.mem_filter.mp he).2
  exact bne_iff_ne.mpr hne.symm

theorem rel_lookup {R : α → β → Prop} {xs : List (String × α)} {ys : List (String × β)}
    (h : List.Forall₂ (fun a b => a.1 = b.1 ∧ R a.2 b.2) xs ys) (s : String) :
    Option.Rel R (xs.lookup s) (ys.lookup s) := by
  induction h with
  | nil => exact .none
  | @cons a b xs ys hab _ ih =>
    obtain ⟨t, x⟩ := a
    obtain ⟨t', y⟩ := b
    obtain ⟨rfl, hxy⟩ : t = t' ∧ R x y := hab
    simp only [List.lookup_cons]
    split
    · exact .some hxy
    · exact ih

theorem lookup_perm {xs ys : List (String × α)} (h : xs.Perm ys) (hd : (xs.map (·.1)).Nodup)
    (s : String) : xs.lookup s = ys.lookup s := by
  induction h with
  | nil => rfl
  | cons e _ ih =>
    rcases e with ⟨t, x⟩
    rw [List.map_cons, List.nodup_cons] at hd
    rw [List.lookup_cons, List.lookup_cons, ih hd.2]
  | swap d e xs =>
    rcases d with ⟨t, x⟩
    rcases e with ⟨u, y⟩
    have hne : u ≠ t := by
      simp only [List.map_cons, List.nodup_cons, List.mem_cons, not_or] at hd
      exact hd.1.1
    simp only [List.lookup_cons]
    by_cases hu : s = u
    · simp [hu, beq_eq_false_iff_ne.mpr hne]
    · simp [beq_eq_false_iff_ne.mpr hu]
  | trans hxy _ ih ih' => rw [ih hd, ih' ((hxy.map _).nodup_iff.mp hd)]

theorem mem_of_take {c c' : NamedChildren α} {s : String} {x : α} (h : c.take s = .ok (x, c')) :
    (s, x) ∈ c.entries ∧ ∀ e ∈ c'.entries, e ∈ c.entries := by
  obtain ⟨hx, rfl⟩ := take_eq_ok.mp h
  constructor
  · obtain ⟨l, r, hl, -⟩ := List.lookup_eq_some_iff.mp hx
    simp [hl]
  · exact fun e he => List.mem_of_mem_filter he

theorem mem_of_listed {key : α → Key} {xs : List α} {entries : List (String × α)}
    (h : xs.map (fun x => (key x, x)) = listed entries) {e : String × α} (he : e ∈ entries) :
    e.2 ∈ xs := by
  have hmem : (Key.name e.1, e.2) ∈ xs.map fun x => (key x, x) := by
    rw [h]
    exact List.mem_map_of_mem he
  obtain ⟨x, hx, heq⟩ := List.mem_map.mp hmem
  rw [← (Prod.mk.inj heq).2]
  exact hx

theorem find?_listed {key : α → Key} {xs : List α} {entries : List (String × α)}
    (h : xs.map (fun x => (key x, x)) = listed entries) (s : String) :
    xs.find? (fun x => key x = .name s) = entries.lookup s := by
  induction entries generalizing xs with
  | nil =>
    rw [List.map_eq_nil_iff.mp h]
    rfl
  | cons e entries ih =>
    rcases xs with _ | ⟨x, xs⟩
    · cases h
    · rcases e with ⟨t, y⟩
      obtain ⟨_, _, hk, ht, hrest⟩ := cons_eq_listed.mp h
      cases hrest
      by_cases hs : t = s
      · subst hs
        simp [hk]
      · rw [List.find?_cons_of_neg (by simp [hk, hs]), ih ht, List.lookup_cons,
          beq_eq_false_iff_ne.mpr (Ne.symm hs)]

section Keyed

variable {α : Type} {key : α → Key} {xs : List α} {c : NamedChildren α} {s : String}

theorem ofList_keyed : ofList (xs.map fun x => (key x, x)) = .ok c ↔
    xs = c.entries.map (·.2) ∧ (∀ e ∈ c.entries, key e.2 = .name e.1) ∧
      (c.entries.map (·.1)).Nodup := by
  rw [ofList_eq_ok, ← and_assoc]
  apply and_congr_left
  intro _
  constructor
  · intro h
    have hxs : xs = c.entries.map (·.2) := by
      simpa [listed, Function.comp_def] using congrArg (List.map Prod.snd) h
    subst hxs
    refine ⟨rfl, ?_⟩
    simpa [listed] using h
  · rintro ⟨rfl, hkey⟩
    simpa [listed] using hkey

theorem keys_listed {entries : List (String × α)} (h : ∀ e ∈ entries, key e.2 = .name e.1) :
    (entries.map (·.2)).map key = (entries.map (·.1)).map .name := by
  simpa using h

theorem keys_ofList (h : ofList (xs.map fun x => (key x, x)) = .ok c) :
    xs.map key = (c.entries.map (·.1)).map .name := by
  obtain ⟨rfl, hkey, -⟩ := ofList_keyed.mp h
  exact keys_listed hkey

theorem nodup_names {names : List String} : (names.map Key.name).Nodup ↔ names.Nodup :=
  List.nodup_map_iff fun _ _ => Key.name.inj

theorem exists_ofList : (∃ c, ofList (xs.map fun x => (key x, x)) = .ok c) ↔
    (∀ x ∈ xs, ∃ s, key x = .name s) ∧ (xs.map key).Nodup := by
  constructor
  · rintro ⟨c, hc⟩
    refine ⟨fun x hx => ?_, ?_⟩
    · have hmem : key x ∈ xs.map key := List.mem_map_of_mem hx
      rw [keys_ofList hc] at hmem
      obtain ⟨s, -, hs⟩ := List.mem_map.mp hmem
      exact ⟨s, hs.symm⟩
    · rw [keys_ofList hc, nodup_names]
      exact (ofList_keyed.mp hc).2.2
  · rintro ⟨hnamed, hd⟩
    obtain ⟨entries, hentries⟩ := exists_forall₂ (R := fun x (e : String × α) =>
      x = e.2 ∧ key e.2 = .name e.1) fun x hx => by
        obtain ⟨s, hs⟩ := hnamed x hx
        exact ⟨(s, x), rfl, hs⟩
    obtain rfl : xs = entries.map (·.2) := by
      rw [← List.forall₂_eq_eq_eq, List.forall₂_map_right_iff]
      exact hentries.imp fun _ _ h => h.1
    have hkey : ∀ e ∈ entries, key e.2 = .name e.1 := by
      intro e he
      obtain ⟨_, -, _, hkey⟩ := exists_of_forall₂ hentries.flip e he
      exact hkey
    rw [keys_listed hkey, nodup_names] at hd
    exact ⟨⟨entries⟩, ofList_keyed.mpr ⟨rfl, hkey, hd⟩⟩

theorem lookup_eq_some_iff {entries : List (String × α)} (hd : (entries.map (·.1)).Nodup) {x : α} :
    entries.lookup s = some x ↔ (s, x) ∈ entries := by
  induction entries with
  | nil => simp
  | cons e entries ih =>
    rcases e with ⟨t, y⟩
    rw [List.map_cons, List.nodup_cons] at hd
    by_cases hs : s = t
    · subst hs
      have hout : (s, x) ∉ entries := by
        intro hmem
        exact hd.1 (List.mem_map.mpr ⟨_, hmem, rfl⟩)
      simp [hout, eq_comm]
    · rw [List.lookup_cons, beq_eq_false_iff_ne.mpr hs, ih hd.2]
      simp [hs]

theorem lookup_ofList (h : ofList (xs.map fun x => (key x, x)) = .ok c) {x : α} :
    c.entries.lookup s = some x ↔ x ∈ xs ∧ key x = .name s := by
  obtain ⟨rfl, hkey, hd⟩ := ofList_keyed.mp h
  rw [lookup_eq_some_iff hd]
  constructor
  · intro hmem
    exact ⟨List.mem_map_of_mem (f := Prod.snd) hmem, hkey _ hmem⟩
  · rintro ⟨hx, hs⟩
    obtain ⟨e, he, rfl⟩ := List.mem_map.mp hx
    rw [hkey e he] at hs
    cases hs
    exact he

theorem mem_ofList (h : ofList (xs.map fun x => (key x, x)) = .ok c) :
    s ∈ c.entries.map (·.1) ↔ .name s ∈ xs.map key := by
  rw [keys_ofList h, List.mem_map_of_injective fun _ _ => Key.name.inj]

end Keyed

section Without

variable {α : Type} {c c' : NamedChildren α} {s : String} {x : α}

def without (c : NamedChildren α) (names : List String) : NamedChildren α :=
  ⟨c.entries.filter (·.1 ∉ names)⟩

@[simp] theorem without_nil : c.without [] = c := by
  simp [without]

theorem without_take (h : c.take s = .ok (x, c')) (names : List String) :
    c'.without names = c.without (s :: names) := by
  obtain ⟨-, rfl⟩ := take_eq_ok.mp h
  simp only [without, List.filter_filter, List.mem_cons, not_or, mk.injEq]
  apply List.filter_congr
  intro e _
  simp [Bool.and_comm]

theorem mem_without {names : List String} :
    s ∈ (c.without names).entries.map (·.1) ↔ s ∈ c.entries.map (·.1) ∧ s ∉ names := by
  simp only [without, List.mem_map, List.mem_filter, decide_eq_true_eq]
  constructor
  · rintro ⟨e, ⟨he, hout⟩, rfl⟩
    exact ⟨⟨e, he, rfl⟩, hout⟩
  · rintro ⟨⟨e, he, rfl⟩, hout⟩
    exact ⟨e, ⟨he, hout⟩, rfl⟩

end Without

end NamedChildren

end TypedWire
