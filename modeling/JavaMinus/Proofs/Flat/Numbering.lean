import JavaMinus.Proofs.Flat.Execution
import JavaMinus.Proofs.Flat.Successors
import JavaMinus.Proofs.Lowering.Failures

/-!
# Numbered instructions

An assembled method is its code again: written out with their labels, the steps give the code back, and
the id of a step counts the instructions up to it. The successors of a step are the instructions that
control can reach from it in one step of the code. Assembly fails only for a jump without a label.
-/

namespace JavaMinus.Flat

open JavaMinus.Lowering (target? jumpsOf instr_of_attachLabels labelId?_isSome)

/-! ### Writing instructions with their labels -/

def Item.isInstr : Item → Bool
  | .label _ => false
  | .instr _ => true

def written (entry : List String × Instr) : Code :=
  entry.1.map .label ++ [.instr entry.2]

/-- The code with an instruction behind the labels at its end, if there are any. -/
def capped (code : Code) : Code :=
  if code.getLast?.all Item.isInstr then code else code ++ [.instr .nop]

theorem capped_append (before : Code) (i : Instr) (after : Code) :
    capped (before ++ .instr i :: after) = before ++ .instr i :: capped after := by
  have hlast : (before ++ .instr i :: after).getLast?.all Item.isInstr =
      after.getLast?.all Item.isInstr := by
    rw [List.getLast?_append, List.getLast?_cons]
    cases after.getLast? <;> rfl
  unfold capped
  rw [hlast]
  split <;> simp

theorem capped_labels {names : List String} (h : names ≠ []) :
    capped (names.map .label) = names.map .label ++ [.instr .nop] := by
  unfold capped
  rw [List.getLast?_map, List.getLast?_eq_some_getLast h]
  rfl

theorem labelsOf_capped (code : Code) : labelsOf (capped code) = labelsOf code := by
  unfold capped
  split <;> simp

theorem flatMap_written (code : Code) (pending : List String) :
    (attachLabels code pending).flatMap written = capped (pending.map .label ++ code) := by
  induction code generalizing pending with
  | nil =>
    cases pending with
    | nil => rfl
    | cons name names =>
      rw [List.append_nil, capped_labels (List.cons_ne_nil name names)]
      simp [attachLabels, written]
  | cons item rest ih =>
    cases item with
    | label name => simp [attachLabels, ih]
    | instr i =>
      rw [capped_append, attachLabels, List.flatMap_cons, ih]
      simp [written]

theorem attachLabels_labels (names : List String) (i : Instr) (rest : Code) (pending : List String) :
    attachLabels (names.map .label ++ .instr i :: rest) pending =
      (pending ++ names, i) :: attachLabels rest [] := by
  induction names generalizing pending with
  | nil => simp [attachLabels]
  | cons name names ih => simp [attachLabels, ih]

theorem attachLabels_written (body : List (List String × Instr)) :
    attachLabels (body.flatMap written) [] = body := by
  induction body with
  | nil => rfl
  | cons entry rest ih =>
    rw [List.flatMap_cons, written, List.append_assoc, List.singleton_append, attachLabels_labels, ih]
    rfl

/-! ### Counting instructions -/

/-- The number of instructions before a position. -/
def rank (code : Code) (pc : Nat) : Nat :=
  (code.take pc).countP Item.isInstr

@[simp] theorem rank_zero (code : Code) : rank code 0 = 0 := by
  simp [rank]

@[simp] theorem rank_label (name : String) (code : Code) (pc : Nat) :
    rank (.label name :: code) (pc + 1) = rank code pc := by
  simp [rank, Item.isInstr]

@[simp] theorem rank_instr (i : Instr) (code : Code) (pc : Nat) :
    rank (.instr i :: code) (pc + 1) = rank code pc + 1 := by
  simp [rank, Item.isInstr, List.countP_cons]

theorem rank_succ {code : Code} {pc : Nat} {item : Item} (h : code[pc]? = some item) :
    rank code (pc + 1) = rank code pc + if item.isInstr then 1 else 0 := by
  unfold rank
  rw [List.take_add_one, h, List.countP_append]
  simp [List.countP_cons]

theorem rank_mono (code : Code) {pc pc' : Nat} (h : pc ≤ pc') : rank code pc ≤ rank code pc' :=
  (List.take_sublist_take_left h).countP_le

/-- An instruction is attached at the index that counts the instructions before it. -/
theorem attachLabels_rank {code : Code} {pc : Nat} {i : Instr} (h : code[pc]? = some (.instr i))
    (pending : List String) : ∃ labels, (attachLabels code pending)[rank code pc]? = some (labels, i) := by
  induction code generalizing pc pending with
  | nil => simp at h
  | cons item rest ih =>
    cases pc with
    | zero =>
      obtain rfl : item = .instr i := by simpa using h
      exact ⟨pending, rfl⟩
    | succ pc =>
      rw [List.getElem?_cons_succ] at h
      cases item with
      | label name =>
        obtain ⟨labels, hlabels⟩ := ih h (pending ++ [name])
        exact ⟨labels, by rw [rank_label]; exact hlabels⟩
      | instr j =>
        obtain ⟨labels, hlabels⟩ := ih h []
        exact ⟨labels, by rw [rank_instr]; exact hlabels⟩

theorem attachLabels_pending (code : Code) {pending : List String} {label : String}
    (h : label ∈ pending) : ∃ entry, (attachLabels code pending)[0]? = some entry ∧ label ∈ entry.1 := by
  induction code generalizing pending with
  | nil =>
    cases pending with
    | nil => simp at h
    | cons name names => exact ⟨(name :: names, .nop), rfl, h⟩
  | cons item rest ih =>
    cases item with
    | label name => exact ih (List.mem_append_left _ h)
    | instr i => exact ⟨(pending, i), rfl, h⟩

theorem attachLabels_rank_label {code : Code} {q : Nat} {label : String}
    (h : code[q]? = some (.label label)) (pending : List String) :
    ∃ entry, (attachLabels code pending)[rank code q]? = some entry ∧ label ∈ entry.1 := by
  induction code generalizing q pending with
  | nil => simp at h
  | cons item rest ih =>
    cases q with
    | zero =>
      obtain rfl : item = .label label := by simpa using h
      rw [rank_zero]
      exact attachLabels_pending rest (List.mem_append_right pending (List.mem_singleton.mpr rfl))
    | succ q =>
      rw [List.getElem?_cons_succ] at h
      cases item with
      | label name =>
        rw [rank_label]
        exact ih h (pending ++ [name])
      | instr j =>
        rw [rank_instr]
        exact ih h []

theorem rank_append (before after : Code) (pc : Nat) :
    rank (before ++ after) (before.length + pc) = before.countP Item.isInstr + rank after pc := by
  unfold rank
  rw [List.take_length_add_append, List.countP_append]

theorem countP_labels (names : List String) : (names.map Item.label).countP Item.isInstr = 0 := by
  simp [List.countP_eq_zero, Item.isInstr]

/-- Every entry is an instruction of the code it is written in. -/
theorem exists_rank_eq {body : List (List String × Instr)} {k : Nat} {entry : List String × Instr}
    (h : body[k]? = some entry) :
    ∃ pc, (body.flatMap written)[pc]? = some (.instr entry.2) ∧ rank (body.flatMap written) pc = k := by
  induction body generalizing k with
  | nil => simp at h
  | cons first rest ih =>
    rw [List.flatMap_cons]
    cases k with
    | zero =>
      obtain rfl : first = entry := by simpa using h
      have hrank := rank_append (first.1.map .label) (.instr first.2 :: rest.flatMap written) 0
      rw [countP_labels, List.length_map] at hrank
      refine ⟨first.1.length, by simp [written], ?_⟩
      simpa [written] using hrank
    | succ k =>
      obtain ⟨pc, hpc, hrank⟩ := ih (by simpa using h)
      refine ⟨(written first).length + pc, ?_, ?_⟩
      · rw [List.getElem?_append_right (Nat.le_add_right _ _), Nat.add_sub_cancel_left, hpc]
      · rw [rank_append, hrank, written, List.countP_append, countP_labels]
        simp [Item.isInstr, Nat.add_comm]

/-! ### Steps of the code -/

/-- Control at position `q` comes to the instruction at `pc`: only labels stand between. -/
inductive Arrives (code : Code) : Nat → Nat → Prop
  | here {pc : Nat} {i : Instr} : code[pc]? = some (.instr i) → Arrives code pc pc
  | pass {q pc : Nat} {label : String} :
      code[q]? = some (.label label) → Arrives code (q + 1) pc → Arrives code q pc

/-- From the instruction at `pc`, control may come to the one at `pc'` next. -/
inductive Goes (code : Code) (pc pc' : Nat) : Prop
  | falls {i : Instr} :
      code[pc]? = some (.instr i) → i.falls = true → Arrives code (pc + 1) pc' → Goes code pc pc'
  | jumps {i : Instr} {label : String} {q : Nat} :
      code[pc]? = some (.instr i) → target? i = some label → labelPlace? code label = some q →
      Arrives code q pc' → Goes code pc pc'

theorem Arrives.instr {code : Code} {q pc : Nat} (h : Arrives code q pc) :
    ∃ i, code[pc]? = some (.instr i) := by
  induction h with
  | here hi => exact ⟨_, hi⟩
  | pass _ _ ih => exact ih

theorem Arrives.rank_eq {code : Code} {q pc : Nat} (h : Arrives code q pc) :
    rank code q = rank code pc := by
  induction h with
  | here _ => rfl
  | pass hlabel _ ih =>
    rw [← ih, rank_succ hlabel]
    rfl

theorem rank_instr_succ {code : Code} {pc : Nat} {i : Instr} (hi : code[pc]? = some (.instr i)) :
    rank code (pc + 1) = rank code pc + 1 :=
  rank_succ hi

/-- No position behind an instruction has its rank. -/
theorem le_of_rank_eq {code : Code} {q pc : Nat} {i : Instr} (hi : code[pc]? = some (.instr i))
    (h : rank code q = rank code pc) : q ≤ pc := by
  by_contra hgt
  have hafter := rank_instr_succ hi
  have hmono := rank_mono code (show pc + 1 ≤ q by omega)
  omega

theorem arrives_of_rank_eq {code : Code} {q pc : Nat} {i : Instr} (hi : code[pc]? = some (.instr i))
    (h : rank code q = rank code pc) : Arrives code q pc := by
  obtain ⟨d, rfl⟩ := Nat.exists_eq_add_of_le (le_of_rank_eq hi h)
  induction d generalizing q with
  | zero => exact .here hi
  | succ d ih =>
    rw [← Nat.add_assoc, Nat.add_right_comm] at hi h ⊢
    have hlt : q < code.length := by
      have := (List.getElem?_eq_some_iff.mp hi).1
      omega
    have hmono := rank_mono code (Nat.le_add_right (q + 1) d)
    cases hitem : code[q] with
    | instr j =>
      have hq : code[q]? = some (.instr j) := by rw [List.getElem?_eq_getElem hlt, hitem]
      have hafter := rank_instr_succ hq
      omega
    | label name =>
      have hq : code[q]? = some (.label name) := by rw [List.getElem?_eq_getElem hlt, hitem]
      refine .pass hq (ih hi ?_)
      rw [rank_succ hq]
      exact h

/-- A run of the code takes the steps that `Goes` allows. -/
theorem goes_of_stepCode? {S : Type} {π : Platform S} {code : Code} {p p' : Point S} {i : Instr}
    {pc' : Nat} (hi : code[p.pc]? = some (.instr i)) (hstep : stepCode? π code p = some p')
    (harrives : Arrives code p'.pc pc') : Goes code p.pc pc' := by
  simp only [stepCode?, hi] at hstep
  rcases hexec : i.exec π p.store p.world with _ | ⟨⟨flow, store⟩, world⟩
  · simp [hexec] at hstep
  · rw [hexec] at hstep
    cases flow with
    | next =>
      obtain rfl := Option.some.inj hstep
      obtain ⟨hret, hgoto⟩ := exec_next hexec
      refine .falls hi ?_ harrives
      cases i with
      | goto label => exact absurd rfl (hgoto label)
      | ret value => cases hret
      | assign | binary | not | call | branch | getField | putField | single | nop => rfl
    | jump label =>
      obtain ⟨q, hq, rfl⟩ := Option.map_eq_some_iff.mp hstep
      refine .jumps hi ?_ hq harrives
      rcases exec_jump hexec with rfl | ⟨cond, rfl⟩
      · rfl
      · rfl
    | ret value => simp at hstep

/-! ### Jumps -/

theorem mem_labelsOf {code : Code} {label : String} {id : Nat}
    (h : labelId? (attachLabels code []) label = some id) : label ∈ labelsOf code := by
  obtain ⟨k, entry, _, hentry, hlabel⟩ := labelId?_eq_some h
  rw [← List.nil_append (labelsOf code), ← flatMap_attachLabels]
  exact List.mem_flatMap.mpr ⟨entry, List.mem_of_getElem? hentry, hlabel⟩

theorem labelId?_eq_none_iff {code : Code} {label : String} :
    labelId? (attachLabels code []) label = none ↔ label ∉ labelsOf code := by
  constructor
  · intro hnone hmem
    obtain ⟨id, hid⟩ := labelId?_isSome hmem
    rw [hnone] at hid
    cases hid
  · intro hmem
    cases hid : labelId? (attachLabels code []) label with
    | none => rfl
    | some id => exact absurd (mem_labelsOf hid) hmem

theorem getElem?_labelPlace? {code : Code} {label : String} {q : Nat}
    (h : labelPlace? code label = some q) : code[q]? = some (.label label) := by
  obtain ⟨hlt, hget, _⟩ := List.findIdx?_eq_some_iff_getElem.mp h
  rw [List.getElem?_eq_getElem hlt, beq_iff_eq.mp hget]

/-- With distinct labels, a jump leads to the instruction that follows the place of its label. -/
theorem labelId?_eq_labelPlace? {code : Code} (hlabels : (labelsOf code).Nodup) (label : String) :
    labelId? (attachLabels code []) label = (labelPlace? code label).map (rank code · + 1) := by
  cases hq : labelPlace? code label with
  | none =>
    rw [Option.map_none, labelId?_eq_none_iff]
    intro hmem
    obtain ⟨item, hitem, hlabel⟩ := List.mem_filterMap.mp hmem
    have hne := List.findIdx?_eq_none_iff.mp hq item hitem
    cases item with
    | label name =>
      obtain rfl := Option.some.inj hlabel
      simp at hne
    | instr i => cases hlabel
  | some q =>
    have hitem := getElem?_labelPlace? hq
    obtain ⟨entry, hentry, hmem⟩ := attachLabels_rank_label hitem []
    obtain ⟨id, hid⟩ := labelId?_isSome
      (List.mem_filterMap.mpr ⟨_, List.mem_of_getElem? hitem, rfl⟩ : label ∈ labelsOf code)
    obtain ⟨k, entry', rfl, hentry', hmem'⟩ := labelId?_eq_some hid
    have hnodup : ((attachLabels code []).flatMap (·.1)).Nodup := by
      rw [flatMap_attachLabels]
      exact hlabels
    rw [hid, Option.map_some, index_unique hnodup hentry' hentry hmem' hmem]

namespace StepAt

variable {name : String} {body : List (List String × Instr)} {s : Step} {pc : Nat}

theorem exists_goes (h : StepAt name body (rank (body.flatMap written) pc) s)
    (hlabels : (labelsOf (body.flatMap written)).Nodup)
    (hi : (body.flatMap written)[pc]? = some (.instr s.instr)) {id : Nat} (hid : id ∈ s.succs) :
    ∃ pc', Goes (body.flatMap written) pc pc' ∧ id = rank (body.flatMap written) pc' + 1 := by
  rcases (h.mem_succs_iff id).mp hid with ⟨hfalls, hnext⟩ | ⟨label, htarget, hid⟩
  · obtain ⟨hlt, rfl⟩ := nextId_eq_some.mp hnext
    obtain ⟨pc', hpc', hrank⟩ := exists_rank_eq (List.getElem?_eq_getElem hlt)
    refine ⟨pc', .falls hi hfalls (arrives_of_rank_eq hpc' ?_), by rw [hrank]⟩
    rw [rank_instr_succ hi, hrank]
  · have hplace := labelId?_eq_labelPlace? hlabels label
    rw [attachLabels_written, hid] at hplace
    obtain ⟨q, hq, rfl⟩ := Option.map_eq_some_iff.mp hplace.symm
    -- the label waits for the entry at its rank
    obtain ⟨entry, hentry, _⟩ := attachLabels_rank_label (getElem?_labelPlace? hq) []
    rw [attachLabels_written] at hentry
    obtain ⟨pc', hpc', hrank⟩ := exists_rank_eq hentry
    exact ⟨pc', .jumps hi htarget hq (arrives_of_rank_eq hpc' hrank.symm), by rw [hrank]⟩

theorem mem_succs_of_goes (h : StepAt name body (rank (body.flatMap written) pc) s)
    (hlabels : (labelsOf (body.flatMap written)).Nodup)
    (hi : (body.flatMap written)[pc]? = some (.instr s.instr)) {pc' : Nat}
    (hgoes : Goes (body.flatMap written) pc pc') : rank (body.flatMap written) pc' + 1 ∈ s.succs := by
  rw [h.mem_succs_iff]
  cases hgoes with
  | falls hi' hfalls harrives =>
    obtain rfl : s.instr = _ := by simpa [hi] using hi'
    obtain ⟨j, hj⟩ := harrives.instr
    obtain ⟨labels, hentry⟩ := attachLabels_rank hj []
    rw [attachLabels_written] at hentry
    have hrank := harrives.rank_eq
    rw [rank_instr_succ hi] at hrank
    have hlt := (List.getElem?_eq_some_iff.mp hentry).1
    exact .inl ⟨hfalls, nextId_eq_some.mpr ⟨by omega, by omega⟩⟩
  | jumps hi' htarget hq harrives =>
    obtain rfl : s.instr = _ := by simpa [hi] using hi'
    have hplace := labelId?_eq_labelPlace? hlabels
    rw [attachLabels_written] at hplace
    exact .inr ⟨_, htarget, by rw [hplace, hq, Option.map_some, harrives.rank_eq]⟩

end StepAt

/-! ### Assembled methods -/

/-- The steps are the instructions of the code, in order, and lead where the code leads. -/
structure Numbered (code : Code) (steps : List Step) : Prop where
  ids : steps.map (·.id) = List.range' 1 steps.length
  text : (steps.flatMap fun s => written (s.labels, s.instr)) = capped code
  succs : ∀ s ∈ steps, s.succs.Nodup ∧ ∀ id ∈ s.succs, id ∈ steps.map (·.id)
  /-- A step stands at the instruction that its id counts. Its successors are the instructions that
  control can come to from there, and no run of the code leaves them. -/
  reach : (labelsOf code).Nodup → ∀ s ∈ steps, ∃ pc,
    (capped code)[pc]? = some (.instr s.instr) ∧ s.id = rank (capped code) pc + 1 ∧
      (∀ id, id ∈ s.succs ↔ ∃ pc', Goes (capped code) pc pc' ∧ id = rank (capped code) pc' + 1) ∧
      ∀ (S : Type) (π : Platform S) (p p' : Point S) (pc' : Nat), p.pc = pc →
        stepCode? π (capped code) p = some p' → Arrives (capped code) p'.pc pc' →
        rank (capped code) pc' + 1 ∈ s.succs

namespace Method

variable {header : Header} {code : Code} {m : Method}

theorem text_of_assemble (h : assemble header code = .ok m) :
    (m.steps.flatMap fun s => written (s.labels, s.instr)) = capped code := by
  have htext := flatMap_written code []
  rw [← steps_eq_attachLabels h, List.flatMap_map] at htext
  exact htext

theorem numbered_of_assemble (h : assemble header code = .ok m) : Numbered code m.steps := by
  obtain ⟨_, hlen, hsteps⟩ := steps_of_assemble h
  have hids := ids_of_assemble h
  have hcapped := flatMap_written code []
  rw [List.map_nil, List.nil_append] at hcapped
  refine ⟨hids, text_of_assemble h, ?_, ?_⟩
  · intro s hs
    obtain ⟨k, hk⟩ := List.getElem?_of_mem hs
    refine ⟨nodup_successors (hsteps k s hk).succs, fun id hid => ?_⟩
    rw [hids, List.mem_range'_1, hlen]
    exact (hsteps k s hk).succ_exists hid
  · intro hlabels s hs
    obtain ⟨k, hk⟩ := List.getElem?_of_mem hs
    have hat := hsteps k s hk
    obtain ⟨pc, hpc, rfl⟩ := exists_rank_eq hat.source
    rw [← labelsOf_capped, ← hcapped] at hlabels
    rw [← hcapped]
    refine ⟨pc, hpc, hat.id, fun id => ⟨hat.exists_goes hlabels hpc, ?_⟩, ?_⟩
    · rintro ⟨pc', hgoes, rfl⟩
      exact hat.mem_succs_of_goes hlabels hpc hgoes
    · rintro S π p p' pc' rfl hstep harrives
      exact hat.mem_succs_of_goes hlabels hpc (goes_of_stepCode? hpc hstep harrives)

theorem undefined_of_assemble {e : Error} (h : assemble header code = .error e) :
    ∃ label ∈ jumpsOf code, label ∉ labelsOf code ∧
      e = .unsupportedInstr (.undefinedLabel label header.name) := by
  unfold assemble at h
  rcases bind_eq_error.mp h with h | ⟨_, _, h⟩
  · obtain ⟨⟨⟨labels, i⟩, id⟩, hmem, h⟩ := error_of_mapM h
    rcases bind_eq_error.mp h with h | ⟨_, _, h⟩
    · obtain ⟨label, htarget, hlabel⟩ := successors_eq_error.mp h
      obtain ⟨hnone, rfl⟩ := jumpTarget_eq_error.mp hlabel
      refine ⟨label, ?_, labelId?_eq_none_iff.mp hnone, rfl⟩
      rcases instr_of_attachLabels (List.fst_mem_of_mem_zipIdx hmem) with hi | hnop
      · exact List.mem_filterMap.mpr ⟨.instr i, hi, htarget⟩
      · rw [show i = .nop from hnop] at htarget
        cases htarget
    · exact absurd h pure_ne_error
  · exact absurd h pure_ne_error

theorem labelled_of_assemble (h : assemble header code = .ok m) {label : String}
    (hjump : label ∈ jumpsOf code) : label ∈ labelsOf code := by
  obtain ⟨item, hitem, htarget⟩ := List.mem_filterMap.mp hjump
  cases item with
  | label name => cases htarget
  | instr i =>
    obtain ⟨pc, hpc⟩ := List.getElem?_of_mem hitem
    obtain ⟨labels, hentry⟩ := attachLabels_rank hpc []
    obtain ⟨_, hlen, hsteps⟩ := steps_of_assemble h
    have hlt := (List.getElem?_eq_some_iff.mp hentry).1
    rw [← hlen] at hlt
    have hat := hsteps _ _ (List.getElem?_eq_getElem hlt)
    have hsource := hat.source
    rw [hentry, Option.some.injEq, Prod.mk.injEq] at hsource
    have hi : target? i = some label := htarget
    rw [hsource.2] at hi
    obtain ⟨id, hid⟩ := hat.target_labelled hi
    exact mem_labelsOf hid

/-- Assembly fails exactly if a jump names a label that the code does not have. Otherwise it numbers
the instructions of the code. -/
theorem assemble_numbers (header : Header) (code : Code) :
    ((∃ e, assemble header code = .error e) ↔ ∃ label ∈ jumpsOf code, label ∉ labelsOf code) ∧
      (∀ e, assemble header code = .error e → ∃ label ∈ jumpsOf code, label ∉ labelsOf code ∧
        e = .unsupportedInstr (.undefinedLabel label header.name)) ∧
      ∀ m, assemble header code = .ok m → m.toHeader = header ∧ Numbered code m.steps := by
  refine ⟨⟨?_, ?_⟩, fun e h => undefined_of_assemble h,
    fun m h => ⟨(steps_of_assemble h).1, numbered_of_assemble h⟩⟩
  · rintro ⟨e, h⟩
    obtain ⟨label, hjump, hlabel, _⟩ := undefined_of_assemble h
    exact ⟨label, hjump, hlabel⟩
  · rintro ⟨label, hjump, hlabel⟩
    cases h : assemble header code with
    | error e => exact ⟨e, rfl⟩
    | ok m => exact absurd (labelled_of_assemble h hjump) hlabel

-- a branch to what follows it, a jump back, and a label at the end
example :
    (assemble { name := "spin", returnType := .void }
        [.label "a", .instr (.branch (.single (.lit 1 .bool)) "b"), .label "b", .instr (.goto "a"),
          .label "end"]).toOption.map (·.steps.map fun s => (s.labels, s.succs)) =
      some [(["a"], [2]), (["b"], [1]), (["end"], [])] := by
  decide +kernel

end Method

end JavaMinus.Flat
