import JavaMinus.Proofs.Flat.Assembled
import Mathlib.Data.Option.Basic

/-!
# Running assembled methods

A run of a method goes from step to step. What an instruction does depends only on the variables it
reads, so two ways of keeping variables that agree on those give the same values, the same events and
the same successor.
-/

namespace JavaMinus.Flat

open JavaMinus.Behaviour

/-- How far a run has come: to a point in the method, to a return, or no further. -/
inductive Progress (S : Type) where
  | here (p : Point S)
  | returned (value : Option Value) (world : World)
  | stuck

namespace Method

variable {S : Type}

/-- Where the result of the instruction at position `k` leads. -/
def follow (m : Method) (k : Nat) : Option ((Flow × S) × World) → Progress S
  | some ((.next, store), world) => .here ⟨k + 1, store, world⟩
  | some ((.jump label, store), world) =>
    match m.labelIndex? label with
    | some pc => .here ⟨pc, store, world⟩
    | none => .stuck
  | some ((.ret value, _), world) => .returned value world
  | none => .stuck

def advance (π : Platform S) (m : Method) : Progress S → Progress S
  | .here p =>
    match m.steps[p.pc]? with
    | some s => m.follow p.pc (s.instr.exec π p.store p.world)
    | none => .stuck
  | done => done

def run (π : Platform S) (m : Method) : Nat → Progress S → Progress S
  | 0, p => p
  | n + 1, p => run π m n (advance π m p)

end Method

/-! ### Instructions and their successors -/

section Flow

variable {S : Type} {π : Platform S} {s s' : S} {i : Instr} {w w' : World}

theorem exec_jump {label : String} (h : i.exec π s w = some ((.jump label, s'), w')) :
    i = .goto label ∨ ∃ cond, i = .branch cond label := by
  cases i with
  | goto l =>
    simp only [Instr.exec, pure_eq_some, Prod.mk.injEq, Flow.jump.injEq] at h
    exact .inl (by rw [h.1.1])
  | branch cond l =>
    simp only [Instr.exec, bind_eq_some, pure_eq_some, Prod.mk.injEq] at h
    obtain ⟨v, w₁, _, b, w₂, _, ⟨hflow, _⟩, _⟩ := h
    cases b with
    | true =>
      obtain rfl : label = l := by simpa using hflow
      exact .inr ⟨cond, rfl⟩
    | false => simp at hflow
  | ret value =>
    cases value with
    | none => simp [Instr.exec] at h
    | some op =>
      simp only [Instr.exec, bind_eq_some, pure_eq_some, Prod.mk.injEq, reduceCtorEq, false_and,
        and_false, exists_false] at h
  | assign | putField | nop | binary | not | call | getField | single =>
    simp only [Instr.exec, bind_eq_some, pure_eq_some, Prod.mk.injEq, reduceCtorEq, false_and,
      and_false, exists_false] at h

theorem exec_next (h : i.exec π s w = some ((.next, s'), w')) :
    i.isReturn = false ∧ ∀ label, i ≠ .goto label := by
  cases i with
  | goto l => simp [Instr.exec] at h
  | ret value =>
    cases value with
    | none => simp [Instr.exec] at h
    | some op =>
      simp only [Instr.exec, bind_eq_some, pure_eq_some, Prod.mk.injEq, reduceCtorEq, false_and,
        and_false, exists_false] at h
  | assign | putField | nop | binary | not | call | getField | single | branch =>
    exact ⟨rfl, by simp⟩

end Flow

namespace Method

variable {S : Type} {π : Platform S} {header : Header} {code : Code} {m : Method} {k : Nat} {step : Step}
  {s s' : S} {w w' : World}

theorem succ_of_falls (h : assemble header code = .ok m) (hk : m.steps[k]? = some step)
    (hret : step.instr.isReturn = false) (hgoto : ∀ label, step.instr ≠ .goto label)
    (hlt : k + 1 < m.steps.length) : k + 2 ∈ step.succs := by
  obtain ⟨_, hlen, hsteps⟩ := steps_of_assemble h
  have hsuccs := (hsteps k step hk).succs
  have hnext : nextId (attachLabels code []) k = some (k + 2) := by
    unfold nextId
    rw [← hlen, if_pos hlt]
  rw [hnext] at hsuccs
  cases hi : step.instr with
  | goto l => exact absurd hi (hgoto l)
  | ret value => simp [hi, Instr.isReturn] at hret
  | branch cond l =>
    rw [hi] at hsuccs
    obtain ⟨taken, _, hsuccs⟩ := bind_eq_ok.mp hsuccs
    rw [← pure_eq_ok.mp hsuccs]
    by_cases heq : k + 2 = taken
    · simp [heq]
    · simp [heq]
  | assign | putField | nop | binary | not | call | getField | single =>
    rw [hi] at hsuccs
    rw [← pure_eq_ok.mp hsuccs]
    simp

theorem succ_of_jump (h : assemble header code = .ok m) (hlabels : (labelsOf code).Nodup)
    (hk : m.steps[k]? = some step) {label : String}
    (hjump : step.instr = .goto label ∨ ∃ cond, step.instr = .branch cond label) :
    ∃ j, m.labelIndex? label = some j ∧ j < m.steps.length ∧ j + 1 ∈ step.succs := by
  have hsuccs := ((steps_of_assemble h).2.2 k step hk).succs
  rcases hjump with hi | ⟨cond, hi⟩
  · rw [hi] at hsuccs
    obtain ⟨id, hid, hsuccs⟩ := bind_eq_ok.mp hsuccs
    obtain ⟨j, hj, hlt, rfl⟩ := jump_target h hlabels hid
    refine ⟨j, hj, hlt, ?_⟩
    rw [← pure_eq_ok.mp hsuccs]
    simp
  · rw [hi] at hsuccs
    obtain ⟨id, hid, hsuccs⟩ := bind_eq_ok.mp hsuccs
    obtain ⟨j, hj, hlt, rfl⟩ := jump_target h hlabels hid
    refine ⟨j, hj, hlt, ?_⟩
    rw [← pure_eq_ok.mp hsuccs]
    simp

theorem succ_next (h : assemble header code = .ok m) (hk : m.steps[k]? = some step)
    (hexec : step.instr.exec π s w = some ((.next, s'), w')) (hlt : k + 1 < m.steps.length) :
    k + 2 ∈ step.succs := by
  obtain ⟨hret, hgoto⟩ := exec_next hexec
  exact succ_of_falls h hk hret hgoto hlt

theorem succ_jump (h : assemble header code = .ok m) (hlabels : (labelsOf code).Nodup)
    (hk : m.steps[k]? = some step) {label : String}
    (hexec : step.instr.exec π s w = some ((.jump label, s'), w')) :
    ∃ j, m.labelIndex? label = some j ∧ j < m.steps.length ∧ j + 1 ∈ step.succs :=
  succ_of_jump h hlabels hk (exec_jump hexec)

end Method

/-! ### Two ways of keeping variables -/

section Congruence

variable {S T : Type}

/-- Both stores give the same current object and the same values of the named variables. -/
structure SameReads (π : Platform S) (s : S) (ρ : Platform T) (t : T) (names : List String) :
    Prop where
  oracle : ρ.oracle = π.oracle
  link : ρ.link = π.link
  self : ρ.storage.self? t = π.storage.self? s
  read : ∀ cell : Cell, cell.name ∈ names → ρ.storage.read? t cell = π.storage.read? s cell

variable {π : Platform S} {ρ : Platform T} {s : S} {t : T} {names names' : List String}

theorem SameReads.mono (h : SameReads π s ρ t names) (hsub : ∀ x ∈ names', x ∈ names) :
    SameReads π s ρ t names' :=
  ⟨h.oracle, h.link, h.self, fun cell hcell => h.read cell (hsub _ hcell)⟩

theorem eval_congr {op : Operand} (h : SameReads π s ρ t op.reads) :
    op.eval ρ t = op.eval π s := by
  induction op with
  | lit | classRef => rfl
  | var name ty =>
    unfold Operand.eval
    rw [h.read (.var name) (by simp [Operand.reads, Cell.name])]
  | param index name ty =>
    unfold Operand.eval
    rw [h.read (.param name) (by simp [Operand.reads, Cell.name])]
  | self cls =>
    unfold Operand.eval
    rw [h.self]
  | elem array index ty iha ihi =>
    have ha := iha (h.mono fun x hx => by simp [Operand.reads, hx])
    have hi := ihi (h.mono fun x hx => by simp [Operand.reads, hx])
    unfold Operand.eval
    rw [ha, hi, h.oracle]

theorem evalAll_congr {ops : List Operand} (h : SameReads π s ρ t (ops.flatMap Operand.reads)) :
    evalAll ρ t ops = evalAll π s ops := by
  induction ops with
  | nil => rfl
  | cons op rest ih =>
    have hop := eval_congr (h.mono fun x hx => by simp [hx] : SameReads π s ρ t op.reads)
    have hrest := ih (h.mono fun x hx => by
      rw [List.flatMap_cons, List.mem_append]
      exact .inr hx)
    unfold evalAll
    rw [hop, hrest]

theorem invoke_congr {dispatch : Assembly.Dispatch} {target : Operand} {method : Option String}
    {args : List Operand} {result : Ty}
    (h : SameReads π s ρ t (target.reads ++ args.flatMap Operand.reads)) :
    invoke ρ t dispatch target method args result = invoke π s dispatch target method args result := by
  have htarget := eval_congr (h.mono fun x hx => by simp [hx] : SameReads π s ρ t target.reads)
  have hargs := evalAll_congr (h.mono fun x hx => List.mem_append_right _ hx)
  unfold invoke evalReceiver
  rw [hargs, h.oracle, h.link, htarget]

theorem allocate_congr {target : Operand} {args : List Operand}
    (h : SameReads π s ρ t (target.reads ++ args.flatMap Operand.reads)) :
    allocate ρ t target args = allocate π s target args := by
  unfold allocate
  rw [h.oracle, h.link]
  cases target with
  | classRef name =>
    cases args with
    | nil => rfl
    | cons size rest =>
      have hsize := eval_congr (h.mono fun x hx => by simp [hx] : SameReads π s ρ t size.reads)
      simp only [hsize]
  | lit | var | param | elem | self => rfl

theorem value_congr {i : Instr} (h : SameReads π s ρ t i.reads) : i.value ρ t = i.value π s := by
  cases i with
  | single op => exact eval_congr h
  | binary op lhs rhs =>
    have hl := eval_congr (h.mono fun x hx => by simp [Instr.reads, hx] : SameReads π s ρ t lhs.reads)
    have hr := eval_congr (h.mono fun x hx => by simp [Instr.reads, hx] : SameReads π s ρ t rhs.reads)
    simp only [Instr.value, hl, hr]
  | not op =>
    have hop := eval_congr (h : SameReads π s ρ t op.reads)
    simp only [Instr.value, hop]
  | getField object field =>
    have hobject := eval_congr (h : SameReads π s ρ t object.reads)
    simp only [Instr.value, hobject, h.oracle, h.link]
  | call invocation target method args result =>
    have htarget :=
      eval_congr (h.mono fun x hx => by simp [Instr.reads, hx] : SameReads π s ρ t target.reads)
    cases invocation with
    | static | virtual | special => exact invoke_congr h
    | new => exact allocate_congr h
    | arrayLength => simp only [Instr.value, callValue, htarget, h.oracle]
  | assign | ret | goto | branch | putField | nop => rfl

/-! ### Related results -/

/-- Results with the same flow and world and related stores. -/
def SameEffect (R : S → T → Prop) (x : (Flow × S) × World) (y : (Flow × T) × World) : Prop :=
  x.1.1 = y.1.1 ∧ x.2 = y.2 ∧ R x.1.2 y.1.2

theorem rel_bind {α β γ : Type} {Q : β × World → γ × World → Prop} {x : Act α} {f : α → Act β}
    {g : α → Act γ} {w : World} (h : ∀ a w', Option.Rel Q (f a w') (g a w')) :
    Option.Rel Q ((x >>= f) w) ((x >>= g) w) := by
  simp only [bind, StateT.bind]
  cases x w with
  | none => exact .none
  | some r => exact h r.1 r.2

theorem rel_expect {R : S → T → Prop} {a : Option S} {b : Option T} (h : Option.Rel R a b)
    (w : World) : Option.Rel (fun x y => x.2 = y.2 ∧ R x.1 y.1) (expect a w) (expect b w) := by
  cases h with
  | some hr => exact .some ⟨rfl, hr⟩
  | none => exact .none

theorem writeTo_congr {dest : Operand} (rhs : Act Value) {R : S → T → Prop}
    (h : SameReads π s ρ t (Instr.destReads dest)) (hsame : dest.cell? = none → R s t)
    (hwrite : ∀ cell v, dest.cell? = some cell →
      Option.Rel R (π.storage.write? s cell v) (ρ.storage.write? t cell v)) (w : World) :
    Option.Rel (fun x y => x.2 = y.2 ∧ R x.1 y.1) (writeTo π s dest rhs w) (writeTo ρ t dest rhs w) := by
  cases dest with
  | elem array index ty =>
    have ha := eval_congr (h.mono fun x hx => by simp [Instr.destReads, hx] : SameReads π s ρ t array.reads)
    have hi := eval_congr (h.mono fun x hx => by simp [Instr.destReads, hx] : SameReads π s ρ t index.reads)
    unfold writeTo
    simp only [ha, hi, h.oracle]
    apply rel_bind
    intro a w₁
    apply rel_bind
    intro i w₂
    apply rel_bind
    intro v w₃
    apply rel_bind
    intro _ w₄
    exact .some ⟨rfl, hsame rfl⟩
  | var name ty =>
    unfold writeTo
    apply rel_bind
    intro v w₁
    exact rel_expect (hwrite (.var name) v rfl) w₁
  | param index name ty =>
    unfold writeTo
    apply rel_bind
    intro v w₁
    exact rel_expect (hwrite (.param name) v rfl) w₁
  | lit | self | classRef => exact .none

theorem exec_assign_congr {dest : Operand} {ty : Ty} {rhs : Instr} {R : S → T → Prop}
    (h : SameReads π s ρ t (Instr.assign dest ty rhs).reads) (hsame : dest.cell? = none → R s t)
    (hwrite : ∀ cell v, dest.cell? = some cell →
      Option.Rel R (π.storage.write? s cell v) (ρ.storage.write? t cell v)) (w : World) :
    Option.Rel (SameEffect R) ((Instr.assign dest ty rhs).exec π s w)
      ((Instr.assign dest ty rhs).exec ρ t w) := by
  have hrhs := value_congr (h.mono fun x hx => List.mem_append_right _ hx : SameReads π s ρ t rhs.reads)
  have hdest : SameReads π s ρ t (Instr.destReads dest) := h.mono fun x hx => List.mem_append_left _ hx
  have hwritten := writeTo_congr (rhs.value π s) hdest hsame hwrite w
  simp only [Instr.exec, hrhs, bind, StateT.bind]
  cases hx : writeTo π s dest (rhs.value π s) w with
  | none =>
    cases hy : writeTo ρ t dest (rhs.value π s) w with
    | none => exact .none
    | some y =>
      rw [hx, hy] at hwritten
      cases hwritten
  | some x =>
    cases hy : writeTo ρ t dest (rhs.value π s) w with
    | none =>
      rw [hx, hy] at hwritten
      cases hwritten
    | some y =>
      rw [hx, hy] at hwritten
      cases hwritten with
      | some hr => exact .some ⟨rfl, hr.1, hr.2⟩

/-- An instruction has the same effect on two stores that agree on what it reads. -/
theorem exec_congr {i : Instr} {R : S → T → Prop} (h : SameReads π s ρ t i.reads)
    (hsame : i.defines? = none → R s t)
    (hwrite : ∀ dest ty rhs cell v, i = .assign dest ty rhs → dest.cell? = some cell →
      Option.Rel R (π.storage.write? s cell v) (ρ.storage.write? t cell v)) (w : World) :
    Option.Rel (SameEffect R) (i.exec π s w) (i.exec ρ t w) := by
  cases i with
  | assign dest ty rhs =>
    apply exec_assign_congr h
    · intro hcell
      apply hsame
      rw [Instr.defines?, Operand.name?_eq, hcell]
      rfl
    · intro cell v hcell
      exact hwrite dest ty rhs cell v rfl hcell
  | ret value =>
    cases value with
    | none => exact .some ⟨rfl, rfl, hsame rfl⟩
    | some op =>
      simp only [Instr.exec, eval_congr (h : SameReads π s ρ t op.reads)]
      apply rel_bind
      intro v w₁
      exact .some ⟨rfl, rfl, hsame rfl⟩
  | goto label => exact .some ⟨rfl, rfl, hsame rfl⟩
  | nop => exact .some ⟨rfl, rfl, hsame rfl⟩
  | branch cond label =>
    have hcond : cond.value ρ t = cond.value π s := value_congr h
    simp only [Instr.exec, hcond]
    apply rel_bind
    intro v w₁
    apply rel_bind
    intro b w₂
    exact .some ⟨rfl, rfl, hsame rfl⟩
  | putField object field value =>
    have ho := eval_congr (h.mono fun x hx => List.mem_append_left _ hx : SameReads π s ρ t object.reads)
    have hv := eval_congr (h.mono fun x hx => List.mem_append_right _ hx : SameReads π s ρ t value.reads)
    simp only [Instr.exec, ho, hv, h.oracle, h.link]
    apply rel_bind
    intro o w₁
    apply rel_bind
    intro v w₂
    apply rel_bind
    intro ref w₃
    apply rel_bind
    intro _ w₄
    exact .some ⟨rfl, rfl, hsame rfl⟩
  | binary | not | call | getField | single =>
    simp only [Instr.exec, value_congr h]
    apply rel_bind
    intro v w₁
    exact .some ⟨rfl, rfl, hsame rfl⟩

end Congruence

end JavaMinus.Flat
