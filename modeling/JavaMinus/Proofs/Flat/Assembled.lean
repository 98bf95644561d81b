import JavaMinus.Flat.Method
import JavaMinus.Proofs.Flat.Meaning
import Mathlib.Data.List.Forall2
import Mathlib.Data.List.Nodup

/-!
# Assembled methods

The instructions of an assembled method keep their order and their labels, their ids count from one,
and the id of every place that control may reach next is listed. With distinct labels a jump has one
target.
-/

namespace JavaMinus.Flat

/-! ### Steps that may fail -/

theorem bind_eq_ok {ε α β : Type} {x : Except ε α} {f : α → Except ε β} {b : β} :
    x >>= f = .ok b ↔ ∃ a, x = .ok a ∧ f a = .ok b := by
  cases x with
  | error e => simp [bind, Except.bind]
  | ok a => simp [bind, Except.bind]

theorem pure_eq_ok {ε α : Type} {a b : α} : (pure a : Except ε α) = .ok b ↔ a = b := by
  simp [pure, Except.pure]

theorem guard_ok {ε α β : Type} {p : Prop} [Decidable p] {e : ε} {f : α → Except ε β}
    {x : Except ε β} {b : β} (h : (if p then throw e >>= f else x) = .ok b) : ¬ p ∧ x = .ok b := by
  by_cases hp : p
  · rw [if_pos hp] at h
    obtain ⟨_, hthrow, _⟩ := bind_eq_ok.mp h
    cases hthrow
  · rw [if_neg hp] at h
    exact ⟨hp, h⟩

theorem forall₂_of_mapM {ε α β : Type} {f : α → Except ε β} {as : List α} {bs : List β}
    (h : as.mapM f = .ok bs) : List.Forall₂ (fun a b => f a = .ok b) as bs := by
  induction as generalizing bs with
  | nil =>
    rw [List.mapM_nil, pure_eq_ok] at h
    subst h
    exact .nil
  | cons a as ih =>
    rw [List.mapM_cons] at h
    obtain ⟨b, hb, h⟩ := bind_eq_ok.mp h
    obtain ⟨rest, hrest, h⟩ := bind_eq_ok.mp h
    obtain rfl := pure_eq_ok.mp h
    exact .cons hb (ih hrest)

theorem mapM_of_forall₂ {ε α β : Type} {f : α → Except ε β} {as : List α} {bs : List β}
    (h : List.Forall₂ (fun a b => f a = .ok b) as bs) : as.mapM f = .ok bs := by
  induction h with
  | nil => rfl
  | cons ha _ ih =>
    rw [List.mapM_cons]
    exact bind_eq_ok.mpr ⟨_, ha, bind_eq_ok.mpr ⟨_, ih, rfl⟩⟩

theorem forall₂_append_left {α β : Type} {R : α → β → Prop} {as as' : List α} {bs : List β}
    (h : List.Forall₂ R (as ++ as') bs) :
    ∃ cs cs', bs = cs ++ cs' ∧ List.Forall₂ R as cs ∧ List.Forall₂ R as' cs' := by
  induction as generalizing bs with
  | nil => exact ⟨[], bs, rfl, .nil, h⟩
  | cons a as ih =>
    cases h with
    | cons hR hrest =>
      obtain ⟨cs, cs', rfl, hcs, hcs'⟩ := ih hrest
      exact ⟨_ :: cs, cs', rfl, .cons hR hcs, hcs'⟩

theorem forall₂_compose {α β γ : Type} {P : α → β → Prop} {Q : β → γ → Prop} {R : α → γ → Prop}
    {as : List α} {bs : List β} {cs : List γ} (hP : List.Forall₂ P as bs) (hQ : List.Forall₂ Q bs cs)
    (h : ∀ a b c, P a b → Q b c → R a c) : List.Forall₂ R as cs := by
  induction hP generalizing cs with
  | nil =>
    cases hQ with
    | nil => exact .nil
  | cons hp _ ih =>
    cases hQ with
    | cons hq hrest => exact .cons (h _ _ _ hp hq) (ih hrest)

theorem bind_eq_error {ε α β : Type} {x : Except ε α} {f : α → Except ε β} {e : ε} :
    x >>= f = .error e ↔ x = .error e ∨ ∃ a, x = .ok a ∧ f a = .error e := by
  cases x with
  | error e' => simp [bind, Except.bind]
  | ok a => simp [bind, Except.bind]

theorem pure_ne_error {ε α : Type} {a : α} {e : ε} : ¬ (pure a : Except ε α) = .error e := by
  simp [pure, Except.pure]

/-- A list of steps fails only where one of them does. -/
theorem error_of_mapM {ε α β : Type} {f : α → Except ε β} {as : List α} {e : ε}
    (h : as.mapM f = .error e) : ∃ a ∈ as, f a = .error e := by
  induction as with
  | nil =>
    rw [List.mapM_nil] at h
    exact absurd h pure_ne_error
  | cons a as ih =>
    rw [List.mapM_cons] at h
    rcases bind_eq_error.mp h with ha | ⟨b, _, h⟩
    · exact ⟨a, List.mem_cons_self .., ha⟩
    · rcases bind_eq_error.mp h with hrest | ⟨bs, _, h⟩
      · obtain ⟨a', hmem, ha'⟩ := ih hrest
        exact ⟨a', List.mem_cons_of_mem _ hmem, ha'⟩
      · exact absurd h pure_ne_error

/-! ### The steps of a method -/

def nextId (body : List (List String × Instr)) (k : Nat) : Option Nat :=
  if k + 1 < body.length then some (k + 2) else none

/-- The step at position `k` of the body of a method of this name. -/
structure StepAt (name : String) (body : List (List String × Instr)) (k : Nat) (s : Step) : Prop where
  id : s.id = k + 1
  source : body[k]? = some (s.labels, s.instr)
  succs : successors (jumpTarget name body) (nextId body k) s.instr = .ok s.succs

namespace Method

variable {header : Header} {code : Code} {m : Method}

theorem steps_of_assemble (h : assemble header code = .ok m) :
    m.toHeader = header ∧ m.steps.length = (attachLabels code []).length ∧
      ∀ k s, m.steps[k]? = some s → StepAt header.name (attachLabels code []) k s := by
  unfold assemble at h
  obtain ⟨steps, hsteps, h⟩ := bind_eq_ok.mp h
  obtain rfl := pure_eq_ok.mp h
  have hall := forall₂_of_mapM hsteps
  refine ⟨rfl, by simpa using hall.length_eq.symm, ?_⟩
  intro k s hk
  obtain ⟨hlt, hget⟩ := List.getElem?_eq_some_iff.mp hk
  have hlt' : k < ((attachLabels code []).zipIdx 1).length := by
    rw [hall.length_eq]
    exact hlt
  have hbody : k < (attachLabels code []).length := by simpa using hlt'
  have hstep := hall.get hlt' hlt
  simp only [List.get_eq_getElem, List.getElem_zipIdx, hget] at hstep
  obtain ⟨succs, hsuccs, hstep⟩ := bind_eq_ok.mp hstep
  obtain rfl := pure_eq_ok.mp hstep
  refine ⟨Nat.add_comm 1 k, List.getElem?_eq_getElem hbody, ?_⟩
  unfold nextId
  rw [Nat.add_comm 1 k] at hsuccs
  exact hsuccs

theorem id_of_assemble (h : assemble header code = .ok m) {k : Nat} {s : Step}
    (hk : m.steps[k]? = some s) : s.id = k + 1 :=
  ((steps_of_assemble h).2.2 k s hk).id

theorem ids_of_assemble (h : assemble header code = .ok m) :
    m.steps.map (·.id) = List.range' 1 m.steps.length := by
  apply List.ext_getElem?
  intro k
  rw [List.getElem?_map]
  cases hk : m.steps[k]? with
  | none =>
    have hlen := List.getElem?_eq_none_iff.mp hk
    simp [hlen]
  | some s =>
    obtain ⟨hlt, _⟩ := List.getElem?_eq_some_iff.mp hk
    rw [Option.map_some, id_of_assemble h hk, List.getElem?_range' hlt, Nat.one_mul, Nat.add_comm]

theorem nodup_ids (h : assemble header code = .ok m) : (m.steps.map (·.id)).Nodup := by
  rw [ids_of_assemble h]
  exact List.nodup_range'

end Method

/-! ### Labels -/

theorem flatMap_attachLabels (code : Code) (pending : List String) :
    (attachLabels code pending).flatMap (·.1) = pending ++ labelsOf code := by
  induction code generalizing pending with
  | nil => cases pending <;> simp [attachLabels]
  | cons item rest ih =>
    cases item with
    | label name => simp [attachLabels, ih]
    | instr i => simp [attachLabels, ih]

namespace Method

variable {header : Header} {code : Code} {m : Method}

theorem steps_eq_attachLabels (h : assemble header code = .ok m) :
    m.steps.map (fun s => (s.labels, s.instr)) = attachLabels code [] := by
  obtain ⟨_, hlen, hsteps⟩ := steps_of_assemble h
  apply List.ext_getElem?
  intro k
  rw [List.getElem?_map]
  cases hk : m.steps[k]? with
  | none =>
    have hge := List.getElem?_eq_none_iff.mp hk
    rw [hlen] at hge
    rw [List.getElem?_eq_none_iff.mpr hge]
    rfl
  | some s =>
    rw [(hsteps k s hk).source]
    rfl

theorem flatMap_labels (h : assemble header code = .ok m) :
    m.steps.flatMap (·.labels) = labelsOf code := by
  have hlabels := flatMap_attachLabels code []
  rw [← steps_eq_attachLabels h, List.flatMap_map, List.nil_append] at hlabels
  exact hlabels

end Method

theorem index_unique {body : List (List String × Instr)} (h : (body.flatMap (·.1)).Nodup)
    {i j : Nat} {p q : List String × Instr} {label : String} (hi : body[i]? = some p)
    (hj : body[j]? = some q) (hp : label ∈ p.1) (hq : label ∈ q.1) : i = j := by
  obtain ⟨_, hpair⟩ := List.nodup_flatMap.mp h
  obtain ⟨hi', rfl⟩ := List.getElem?_eq_some_iff.mp hi
  obtain ⟨hj', rfl⟩ := List.getElem?_eq_some_iff.mp hj
  have hdisjoint := List.pairwise_iff_getElem.mp hpair
  rcases Nat.lt_trichotomy i j with hlt | heq | hlt
  · exact absurd hq (hdisjoint i j hi' hj' hlt hp)
  · exact heq
  · exact absurd hp (hdisjoint j i hj' hi' hlt hq)

theorem labelId?_eq_some {body : List (List String × Instr)} {label : String} {id : Nat}
    (h : labelId? body label = some id) :
    ∃ k p, id = k + 1 ∧ body[k]? = some p ∧ label ∈ p.1 := by
  unfold labelId? at h
  obtain ⟨⟨p, id'⟩, hfind, rfl⟩ := Option.map_eq_some_iff.mp h
  have hmem := List.mem_reverse.mp (List.mem_of_find?_eq_some hfind)
  have hlabel : label ∈ p.1 := by simpa using List.find?_some hfind
  obtain ⟨hge, hlt, heq⟩ := List.mem_zipIdx hmem
  refine ⟨id' - 1, p, by simp only at hge ⊢; omega, ?_, hlabel⟩
  rw [List.getElem?_eq_some_iff]
  exact ⟨_, heq.symm⟩

/-- The position of the first step with this label. -/
def Method.labelIndex? (m : Method) (label : String) : Option Nat :=
  m.steps.findIdx? fun s => s.labels.contains label

namespace Method

variable {header : Header} {code : Code} {m : Method}

/-- With distinct labels, the step that carries a label is the one that jumps to it reach. -/
theorem labelIndex?_eq_some (h : assemble header code = .ok m) (hlabels : (labelsOf code).Nodup)
    {k : Nat} {s : Step} {label : String} (hk : m.steps[k]? = some s) (hs : label ∈ s.labels) :
    m.labelIndex? label = some k := by
  obtain ⟨_, _, hsteps⟩ := steps_of_assemble h
  have hnodup : ((attachLabels code []).flatMap (·.1)).Nodup := by
    rw [flatMap_attachLabels]
    exact hlabels
  unfold labelIndex?
  obtain ⟨hlt, hget⟩ := List.getElem?_eq_some_iff.mp hk
  rw [List.findIdx?_eq_some_iff_getElem]
  refine ⟨hlt, by simpa [hget] using hs, ?_⟩
  intro j hj
  have hjlt : j < m.steps.length := Nat.lt_trans hj hlt
  have hj' : m.steps[j]? = some m.steps[j] := List.getElem?_eq_getElem hjlt
  simp only [List.contains_iff_mem]
  intro hmem
  have := index_unique hnodup (hsteps j _ hj').source (hsteps k s hk).source hmem hs
  omega

theorem labelled_of_labelIndex? {k : Nat} {label : String} (h : m.labelIndex? label = some k) :
    ∃ s, m.steps[k]? = some s ∧ label ∈ s.labels := by
  obtain ⟨hlt, hlabel, _⟩ := List.findIdx?_eq_some_iff_getElem.mp h
  exact ⟨_, List.getElem?_eq_getElem hlt, List.contains_iff_mem.mp hlabel⟩

theorem jump_target (h : assemble header code = .ok m) (hlabels : (labelsOf code).Nodup)
    {label : String} {id : Nat}
    (hid : jumpTarget header.name (attachLabels code []) label = .ok id) :
    ∃ k, m.labelIndex? label = some k ∧ k < m.steps.length ∧ id = k + 1 := by
  obtain ⟨_, hlen, hsteps⟩ := steps_of_assemble h
  unfold jumpTarget at hid
  cases hl : labelId? (attachLabels code []) label with
  | none => simp [hl] at hid
  | some id' =>
    rw [hl] at hid
    obtain rfl : id' = id := by simpa using hid
    obtain ⟨k, p, rfl, hp, hmem⟩ := labelId?_eq_some hl
    have hlt : k < m.steps.length := by
      rw [hlen]
      exact (List.getElem?_eq_some_iff.mp hp).1
    have hk : m.steps[k]? = some m.steps[k] := List.getElem?_eq_getElem hlt
    have hsource := (hsteps k _ hk).source
    rw [hp, Option.some.injEq] at hsource
    refine ⟨k, labelIndex?_eq_some h hlabels hk ?_, hlt, rfl⟩
    rw [hsource] at hmem
    exact hmem

end Method

end JavaMinus.Flat
