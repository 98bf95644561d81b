import JavaMinus.Proofs.Flat.Meaning

/-!
# Runs of flat code

A piece of code that stands somewhere in a larger one is followed from its first line on. The larger
code stays fixed while a run goes through its pieces, so jumps always find the same labels.
-/

namespace JavaMinus.Flat

open JavaMinus.Behaviour

theorem labelPlace?_of_placed {P c : Code} {pc : Nat} {label : String}
    (h : Placed P pc (.label label :: c)) (hP : (labelsOf P).Nodup) :
    labelPlace? P label = some pc := by
  obtain ⟨before, after, rfl, rfl⟩ := h
  rw [List.append_assoc, List.cons_append] at hP ⊢
  exact labelPlace?_append hP

section Steps

variable {S : Type} {π : Platform S} {P : Code} {pc : Nat} {s s' : S} {w w' : World}

theorem reaches_next {i : Instr} (hget : P[pc]? = some (.instr i))
    (hexec : i.exec π s w = some ((.next, s'), w')) :
    Reaches (stepCode? π P) ⟨pc, s, w⟩ ⟨pc + 1, s', w'⟩ := by
  apply reaches_of_step
  simp only [stepCode?, hget, hexec]

theorem reaches_jump {i : Instr} {label : String} {target : Nat}
    (hget : P[pc]? = some (.instr i)) (hexec : i.exec π s w = some ((.jump label, s'), w'))
    (htarget : labelPlace? P label = some target) :
    Reaches (stepCode? π P) ⟨pc, s, w⟩ ⟨target, s', w'⟩ := by
  apply reaches_of_step
  simp only [stepCode?, hget, hexec, htarget, Option.map_some]

theorem reaches_label {label : String} (hget : P[pc]? = some (.label label)) :
    Reaches (stepCode? π P) ⟨pc, s, w⟩ ⟨pc + 1, s, w⟩ := by
  apply reaches_of_step
  simp only [stepCode?, hget]

theorem reaches_through {i : Instr} {label : String} {target : Nat} {c : Code}
    (hP : (labelsOf P).Nodup) (hget : P[pc]? = some (.instr i))
    (hexec : i.exec π s w = some ((.jump label, s'), w'))
    (hlabel : Placed P target (.label label :: c)) :
    Reaches (stepCode? π P) ⟨pc, s, w⟩ ⟨target + 1, s', w'⟩ :=
  (reaches_jump hget hexec (labelPlace?_of_placed hlabel hP)).trans (reaches_label hlabel.get)

end Steps

/-! ### Jumps -/

section Jumps

variable {S : Type} {π : Platform S} {P c : Code} {pc target : Nat} {s : S} {cond : Instr}
  {label : String} {v : Value} {w w' : World}

theorem reaches_goto (hP : (labelsOf P).Nodup) (hget : P[pc]? = some (.instr (.goto label)))
    (hlabel : Placed P target (.label label :: c)) :
    Reaches (stepCode? π P) ⟨pc, s, w⟩ ⟨target + 1, s, w⟩ :=
  reaches_through hP hget rfl hlabel

theorem exec_branch {b : Bool} (hcond : cond.value π s w = some (v, w'))
    (hb : v.truth? = some b) :
    (Instr.branch cond label).exec π s w =
      some ((if b then .jump label else .next, s), w') := by
  simp only [Instr.exec, bind_eq_some, pure_eq_some, expect_eq_some]
  exact ⟨v, w', hcond, b, w', ⟨hb, rfl⟩, rfl, rfl⟩

theorem reaches_taken (hP : (labelsOf P).Nodup) (hget : P[pc]? = some (.instr (.branch cond label)))
    (hcond : cond.value π s w = some (v, w')) (hb : v.truth? = some true)
    (hlabel : Placed P target (.label label :: c)) :
    Reaches (stepCode? π P) ⟨pc, s, w⟩ ⟨target + 1, s, w'⟩ :=
  reaches_through hP hget (exec_branch hcond hb) hlabel

theorem reaches_untaken (hget : P[pc]? = some (.instr (.branch cond label)))
    (hcond : cond.value π s w = some (v, w')) (hb : v.truth? = some false) :
    Reaches (stepCode? π P) ⟨pc, s, w⟩ ⟨pc + 1, s, w'⟩ :=
  reaches_next hget (exec_branch hcond hb)

end Jumps

end JavaMinus.Flat
