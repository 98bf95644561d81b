import JavaMinus.Proofs.Lowering.ControlFlow

/-!
# Successors

The successors of an instruction are the target of its jump, if it has one, and what follows it, if
control may run on. Linking an instruction fails only where its target does.
-/

namespace JavaMinus.Flat

open JavaMinus.Lowering (target?)

/-- Control may run on to what follows. -/
def Instr.falls : Instr → Bool
  | .goto _ => false
  | .ret _ => false
  | _ => true

section Successors

variable {target : String → Except Error Nat} {next : Option Nat} {i : Instr} {succs : List Nat}

/-- What follows an instruction, if control may run on to it. -/
def onward (next : Option Nat) (i : Instr) : Option Nat :=
  next.filter fun _ => i.falls

theorem successors_of_none (h : target? i = none) :
    successors target next i = .ok (onward next i).toList := by
  cases i with
  | goto label => cases h
  | branch cond label => cases h
  | ret value => cases next <;> rfl
  | assign | binary | not | call | getField | putField | single | nop => cases next <;> rfl

theorem successors_of_some {label : String} (h : target? i = some label) :
    successors target next i = (do
      let taken ← target label
      return taken :: ((onward next i).filter (· != taken)).toList) := by
  cases i with
  | goto l =>
    obtain rfl := Option.some.inj h
    cases next <;> rfl
  | branch cond l =>
    obtain rfl := Option.some.inj h
    cases next <;> rfl
  | ret | assign | binary | not | call | getField | putField | single | nop => cases h

theorem onward_eq_some {id : Nat} : onward next i = some id ↔ i.falls = true ∧ next = some id := by
  unfold onward
  rw [Option.filter_eq_some_iff]
  exact And.comm

theorem mem_successors (h : successors target next i = .ok succs) (id : Nat) :
    id ∈ succs ↔ (i.falls = true ∧ next = some id) ∨
      ∃ label, target? i = some label ∧ target label = .ok id := by
  rw [← onward_eq_some]
  cases hi : target? i with
  | none =>
    rw [successors_of_none hi] at h
    obtain rfl := Except.ok.inj h
    simp
  | some label =>
    rw [successors_of_some hi] at h
    obtain ⟨taken, htaken, h⟩ := bind_eq_ok.mp h
    obtain rfl := pure_eq_ok.mp h
    by_cases heq : id = taken
    · simp [heq, htaken]
    · simp [heq, htaken, Ne.symm heq, Option.filter_eq_some_iff]

theorem nodup_successors (h : successors target next i = .ok succs) : succs.Nodup := by
  have htoList : ∀ o : Option Nat, o.toList.Nodup := by
    intro o
    cases o <;> simp
  cases hi : target? i with
  | none =>
    rw [successors_of_none hi] at h
    obtain rfl := Except.ok.inj h
    exact htoList _
  | some label =>
    rw [successors_of_some hi] at h
    obtain ⟨taken, _, h⟩ := bind_eq_ok.mp h
    obtain rfl := pure_eq_ok.mp h
    refine List.nodup_cons.mpr ⟨?_, htoList _⟩
    simp [Option.filter_eq_some_iff]

theorem successors_eq_error {e : Error} :
    successors target next i = .error e ↔
      ∃ label, target? i = some label ∧ target label = .error e := by
  cases hi : target? i with
  | none => simp [successors_of_none hi]
  | some label =>
    rw [successors_of_some hi, bind_eq_error]
    simp [pure_ne_error]

end Successors

/-! ### Linked steps -/

theorem jumpTarget_eq_ok {name label : String} {body : List (List String × Instr)} {id : Nat} :
    jumpTarget name body label = .ok id ↔ labelId? body label = some id := by
  unfold jumpTarget
  cases labelId? body label <;> simp

theorem jumpTarget_eq_error {name label : String} {body : List (List String × Instr)} {e : Error} :
    jumpTarget name body label = .error e ↔
      labelId? body label = none ∧ e = .unsupportedInstr (.undefinedLabel label name) := by
  unfold jumpTarget
  cases labelId? body label with
  | none => simp [eq_comm]
  | some id => simp

namespace StepAt

variable {name : String} {body : List (List String × Instr)} {k : Nat} {s : Step}

theorem mem_succs_iff (h : StepAt name body k s) (id : Nat) :
    id ∈ s.succs ↔ (s.instr.falls = true ∧ nextId body k = some id) ∨
      ∃ label, target? s.instr = some label ∧ labelId? body label = some id := by
  rw [mem_successors h.succs id]
  simp only [jumpTarget_eq_ok]

theorem target_labelled (h : StepAt name body k s) {label : String}
    (htarget : target? s.instr = some label) : ∃ id, labelId? body label = some id := by
  have hsuccs := h.succs
  rw [successors_of_some htarget] at hsuccs
  obtain ⟨id, hid, _⟩ := bind_eq_ok.mp hsuccs
  exact ⟨id, jumpTarget_eq_ok.mp hid⟩

theorem nextId_eq_some {id : Nat} : nextId body k = some id ↔ k + 1 < body.length ∧ id = k + 2 := by
  unfold nextId
  split <;> grind

theorem succ_exists (h : StepAt name body k s) {id : Nat} (hid : id ∈ s.succs) :
    1 ≤ id ∧ id < 1 + body.length := by
  rcases (h.mem_succs_iff id).mp hid with ⟨_, hnext⟩ | ⟨label, _, hlabel⟩
  · have := nextId_eq_some.mp hnext
    omega
  · obtain ⟨j, entry, rfl, hentry, _⟩ := labelId?_eq_some hlabel
    have := (List.getElem?_eq_some_iff.mp hentry).1
    omega

end StepAt

end JavaMinus.Flat
