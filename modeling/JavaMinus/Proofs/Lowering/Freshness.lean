import JavaMinus.Proofs.Lowering.Cells
import JavaMinus.Proofs.Lowering.ControlFlow
import JavaMinus.Proofs.Lowering.Steps

/-!
# Generated names are never captured or reused

A temporary is handed out when a step draws it, and it stays used up when the step fails later on. The
temporaries handed out between two states of the counters are those with the numbers in between whose
names the method at hand does not declare. A whole session of lowering operations, with methods
entered in any order and failures on the way, therefore hands out no name twice, and no label is
defined twice in the code that comes back.
-/

namespace JavaMinus.Lowering

open JavaMinus.Source (SymbolTable Expr Stmt)
open JavaMinus.Flat (Ty Operand Code labelsOf)

/-! ### Handing out -/

/-- `Draws σ x f temps f'`: started with counters `f`, the step hands out the temporaries `temps` in
this order and leaves the counters `f'`, whether it fails or not. -/
inductive Draws (σ : Scope) : {α : Type} → LowerM α → Fresh → List String → Fresh → Prop
  | quiet {α : Type} {x : LowerM α} {f : Fresh} : (attempt x f).2 = f → Draws σ x f [] f
  | temp {ty : Ty} {name : String} {f f' : Fresh} : Yields (freshTemp σ ty) f (.var name ty) f' →
      Draws σ (freshTemp σ ty) f [name] f'
  | label {n : Nat} {f f' : Fresh} : Yields freshLabel f n f' → Draws σ freshLabel f [] f'
  | next {α β : Type} {x : LowerM α} {g : α → LowerM β} {a : α} {f f₁ f' : Fresh}
      {temps later : List String} : Yields x f a f₁ → Draws σ x f temps f₁ →
      Draws σ (g a) f₁ later f' → Draws σ (x >>= g) f (temps ++ later) f'
  | fail {α β : Type} {x : LowerM α} {g : α → LowerM β} {e : Error} {f f₁ : Fresh}
      {temps : List String} : attempt x f = (.error e, f₁) → Draws σ x f temps f₁ →
      Draws σ (x >>= g) f temps f₁

/-- Whatever lowering does, it is known what it hands out. -/
theorem Built.draws {σ : Scope} {α : Type} {x : LowerM α} (h : Built σ x) :
    ∀ f, ∃ temps, Draws σ x f temps (attempt x f).2 := by
  induction h with
  | lift => exact fun f => ⟨[], .quiet rfl⟩
  | freshTemp ty =>
    intro f
    exact ⟨_, .temp (yields_freshTemp.mpr ⟨rfl, rfl⟩)⟩
  | freshLabel =>
    intro f
    exact ⟨[], .label (yields_freshLabel.mpr ⟨rfl, rfl⟩)⟩
  | @bind α β x g _ _ ihx ihg =>
    intro f
    obtain ⟨temps, hx⟩ := ihx f
    rw [attempt_bind]
    rcases hr : attempt x f with ⟨r, f₁⟩
    rw [hr] at hx
    cases r with
    | error e => exact ⟨temps, .fail hr hx⟩
    | ok a =>
      obtain ⟨later, hg⟩ := ihg a f₁
      exact ⟨temps ++ later, .next hr hx hg⟩

theorem Draws.counters {σ : Scope} {α : Type} {x : LowerM α} {f f' : Fresh} {temps : List String}
    (h : Draws σ x f temps f') : f' = (attempt x f).2 := by
  induction h with
  | quiet hquiet => exact hquiet.symm
  | temp hyields | label hyields => exact (congrArg Prod.snd hyields).symm
  | next hyields _ _ _ ih =>
    rw [attempt_bind, hyields]
    exact ih
  | fail hfail => rw [attempt_bind, hfail]

/-! ### Numbers of temporaries -/

/-- The temporaries with numbers above `lo` up to `hi`, without the declared names. -/
def Scope.freeTemps (σ : Scope) (lo hi : Nat) : List String :=
  ((List.range' (lo + 1) (hi - lo)).map tempName).filter fun name =>
    !σ.symbols.isDeclared σ.method name

theorem mem_freeTemps {σ : Scope} {lo hi : Nat} {name : String} :
    name ∈ σ.freeTemps lo hi ↔
      (∃ n, lo < n ∧ n ≤ hi ∧ name = tempName n) ∧ σ.symbols.isDeclared σ.method name = false := by
  unfold Scope.freeTemps
  rw [List.mem_filter, List.mem_map, Bool.not_eq_true']
  refine and_congr_left fun _ => ?_
  constructor
  · rintro ⟨n, hn, rfl⟩
    rw [List.mem_range'_1] at hn
    exact ⟨n, by omega, by omega, rfl⟩
  · rintro ⟨n, hlo, hhi, rfl⟩
    refine ⟨n, ?_, rfl⟩
    rw [List.mem_range'_1]
    omega

theorem nodup_freeTemps (σ : Scope) (lo hi : Nat) : (σ.freeTemps lo hi).Nodup := by
  refine List.Nodup.filter _ ?_
  refine List.Pairwise.map tempName ?_ List.nodup_range'
  intro m n hne heq
  exact hne (tempName_inj heq)

theorem freeTemps_self (σ : Scope) (n : Nat) : σ.freeTemps n n = [] := by
  rw [Scope.freeTemps, Nat.sub_self]
  rfl

theorem freeTemps_append (σ : Scope) {lo mid hi : Nat} (hlo : lo ≤ mid) (hhi : mid ≤ hi) :
    σ.freeTemps lo mid ++ σ.freeTemps mid hi = σ.freeTemps lo hi := by
  unfold Scope.freeTemps
  rw [← List.filter_append, ← List.map_append]
  have hmid : mid + 1 = lo + 1 + (mid - lo) := by omega
  have hlen : hi - lo = mid - lo + (hi - mid) := by omega
  rw [hmid, hlen, List.range'_append_1]

/-- The numbers that are passed over are taken. -/
theorem taken_of_lt_firstFree (taken : String → Bool) (fuel n : Nat) {k : Nat} (hn : n ≤ k)
    (hk : k < firstFree taken fuel n) : taken (tempName k) = true := by
  induction fuel generalizing n with
  | zero =>
    unfold firstFree at hk
    omega
  | succ fuel ih =>
    unfold firstFree at hk
    split at hk
    · next htaken =>
      by_cases heq : k = n
      · rw [heq]
        exact htaken
      · exact ih (n + 1) (by omega) hk
    · omega

theorem freeTemps_nextTemp (σ : Scope) (f : Fresh) :
    σ.freeTemps f.temps (σ.nextTemp f) = [tempName (σ.nextTemp f)] := by
  have hlt := lt_nextTemp σ f
  -- every number that is passed over belongs to a declared name
  have hbefore : σ.freeTemps f.temps (σ.nextTemp f - 1) = [] := by
    rw [List.eq_nil_iff_forall_not_mem]
    intro name hname
    obtain ⟨⟨n, hlo, hhi, rfl⟩, hfree⟩ := mem_freeTemps.mp hname
    have htaken := taken_of_lt_firstFree (σ.symbols.isDeclared σ.method)
      (σ.symbols.declaredNames σ.method).length (f.temps + 1) hlo
      (show n < σ.nextTemp f by omega)
    rw [hfree] at htaken
    cases htaken
  have hlast : σ.freeTemps (σ.nextTemp f - 1) (σ.nextTemp f) = [tempName (σ.nextTemp f)] := by
    have hone : σ.nextTemp f - (σ.nextTemp f - 1) = 1 := by omega
    have hnumber : σ.nextTemp f - 1 + 1 = σ.nextTemp f := by omega
    rw [Scope.freeTemps, hone, hnumber]
    simp [isDeclared_nextTemp σ f]
  rw [← freeTemps_append σ (show f.temps ≤ σ.nextTemp f - 1 by omega) (Nat.sub_le _ 1), hbefore, hlast]
  rfl

/-- What is handed out is decided by the counters before and after. -/
theorem Draws.temps_eq {σ : Scope} {α : Type} {x : LowerM α} {f f' : Fresh} {temps : List String}
    (h : Draws σ x f temps f') : f.Upto f' ∧ temps = σ.freeTemps f.temps f'.temps := by
  induction h with
  | quiet => exact ⟨.refl _, (freeTemps_self σ _).symm⟩
  | @temp ty name f f' hyields =>
    obtain ⟨hop, rfl⟩ := yields_freshTemp.mp hyields
    obtain ⟨rfl, _⟩ := Operand.var.inj hop
    exact ⟨.drawn σ f, (freeTemps_nextTemp σ f).symm⟩
  | @label n f f' hyields =>
    obtain ⟨_, rfl⟩ := yields_freshLabel.mp hyields
    exact ⟨.labelled f, (freeTemps_self σ f.temps).symm⟩
  | next _ _ _ ih ih' =>
    obtain ⟨hupto, rfl⟩ := ih
    obtain ⟨hupto', rfl⟩ := ih'
    exact ⟨hupto.trans hupto', freeTemps_append σ hupto.temps hupto'.temps⟩
  -- what was drawn before the failure is used up
  | fail _ _ ih => exact ih

theorem freeTemps_drawn (σ : Scope) {lo : Nat} {f : Fresh} (hlo : lo ≤ f.temps) :
    σ.freeTemps lo (σ.drawn f).temps = σ.freeTemps lo f.temps ++ [tempName (σ.nextTemp f)] := by
  rw [← freeTemps_nextTemp, freeTemps_append σ hlo (Nat.le_of_lt (lt_nextTemp σ f))]
  rfl

/-- A step that succeeds hands out all free temporaries between its counters, and nothing else. -/
theorem Built.draws_iff {σ : Scope} {α : Type} {x : LowerM α} (h : Built σ x) {a : α} {f f' : Fresh}
    (hx : Yields x f a f') {temps : List String} :
    Draws σ x f temps f' ↔ temps = σ.freeTemps f.temps f'.temps := by
  obtain ⟨drawn, hdraws⟩ := h.draws f
  rw [show (attempt x f).2 = f' from congrArg Prod.snd hx] at hdraws
  constructor
  · intro htemps
    exact htemps.temps_eq.2
  · intro heq
    rw [heq, ← hdraws.temps_eq.2]
    exact hdraws

/-! ### Sessions -/

/-- An operation on the counters and the current scope. -/
inductive Op where
  | enter (method : String) (isStatic : Bool) (returnType : Ty)
  | temp (ty : Ty)
  | label
  | expr (e : Expr) (hint : Option Ty)
  | stmt (s : Stmt)
  | stmts (body : List Stmt)

namespace Op

/-- What the operation does in its scope, and the code it gives back if there is any. -/
def step (σ : Scope) : Op → LowerM (Option Code)
  | .enter .. => return none
  | .temp ty => do
    let _ ← freshTemp σ ty
    return none
  | .label => do
    let _ ← freshLabel
    return none
  | .expr e hint => return some (← lowerExpr σ e hint).code
  | .stmt s => return some (← lowerStmt σ s)
  | .stmts body => return some (← lowerStmts σ body)

/-- The scope after the operation. -/
def scope (σ : Scope) : Op → Scope
  | .enter method isStatic returnType => { σ with method, isStatic, returnType }
  | _ => σ

theorem symbols_scope (σ : Scope) (op : Op) : (op.scope σ).symbols = σ.symbols := by
  cases op <;> rfl

theorem step_built (σ : Scope) (op : Op) : Built σ (op.step σ) := by
  cases op with
  | enter => exact .pure none
  | temp ty => exact (Built.freshTemp ty).bind fun _ => .pure none
  | label => exact Built.freshLabel.bind fun _ => .pure none
  | expr e hint => exact (lowerExpr_built σ e hint).bind fun _ => .pure _
  | stmt s => exact (lowerStmt_built σ s).bind fun _ => .pure _
  | stmts body => exact (lowerStmts_built σ body).bind fun _ => .pure _

theorem yields_some {α : Type} {x : LowerM α} {g : α → Code} {f f' : Fresh} {code : Code}
    (h : Yields (do return some (g (← x))) f (some code) f') :
    ∃ a, Yields x f a f' ∧ g a = code := by
  obtain ⟨a, f₁, hx, h⟩ := yields_bind.mp h
  obtain ⟨hcode, rfl⟩ := yields_pure.mp h
  exact ⟨a, hx, (Option.some.inj hcode).symm⟩

/-- Code that comes back has labels with the numbers drawn for it, and jumps to no others. -/
theorem code_of_step {σ : Scope} {op : Op} {f f' : Fresh} {code : Code}
    (h : Yields (op.step σ) f (some code) f') :
    NumberedWithin f.labels f'.labels (labelsOf code) ∧ SelfContained code := by
  cases op with
  | enter => cases (yields_pure.mp h).1
  | temp | label =>
    obtain ⟨_, _, _, h⟩ := yields_bind.mp h
    cases (yields_pure.mp h).1
  | expr e hint =>
    obtain ⟨l, hl, rfl⟩ := yields_some h
    have hderiv := lowers_of_yields σ e hint f l f' hl
    exact ⟨hderiv.numbered, hderiv.selfContained⟩
  | stmt s =>
    obtain ⟨c, hc, rfl⟩ := yields_some h
    have hderiv := lowersStmt_of_yields σ s f c f' hc
    exact ⟨hderiv.numbered, hderiv.selfContained⟩
  | stmts body =>
    obtain ⟨c, hc, rfl⟩ := yields_some h
    have hderiv := lowersStmts_of_yields σ body {} f c f' hc
    exact ⟨hderiv.numbered, hderiv.selfContained⟩

end Op

/-- What one operation has handed out and given back, and the method it was called in. -/
structure Entry where
  method : String
  temps : List String
  code : Option Code

/-- The code that a step gives back; a failed step gives none. -/
def returned (x : LowerM (Option Code)) (f : Fresh) : Option Code :=
  match (attempt x f).1 with
  | .ok code => code
  | .error _ => none

/-- `Logs ops σ f log`: operations run one after the other, each from the counters and the scope that
the one before has left, are recorded in `log`. -/
inductive Logs : List Op → Scope → Fresh → List Entry → Prop
  | done {σ : Scope} {f : Fresh} : Logs [] σ f []
  | op {op : Op} {ops : List Op} {σ : Scope} {f f' : Fresh} {temps : List String}
      {log : List Entry} : Draws σ (op.step σ) f temps f' → Logs ops (op.scope σ) f' log →
      Logs (op :: ops) σ f (⟨σ.method, temps, returned (op.step σ) f⟩ :: log)

theorem exists_logs (ops : List Op) (σ : Scope) (f : Fresh) : ∃ log, Logs ops σ f log := by
  induction ops generalizing σ f with
  | nil => exact ⟨[], .done⟩
  | cons op ops ih =>
    obtain ⟨temps, hdraws⟩ := (op.step_built σ).draws f
    obtain ⟨log, hlog⟩ := ih (op.scope σ) (attempt (op.step σ) f).2
    exact ⟨_, .op hdraws hlog⟩

theorem yields_of_returned {x : LowerM (Option Code)} {f : Fresh} {code : Code}
    (h : returned x f = some code) : Yields x f (some code) (attempt x f).2 := by
  unfold returned at h
  unfold Yields
  rcases hr : attempt x f with ⟨r, f'⟩
  rw [hr] at h
  cases r with
  | error e => cases h
  | ok c => rw [show c = some code from h]

namespace Logs

variable {ops : List Op} {σ : Scope} {f : Fresh} {log : List Entry}

theorem unique (h : Logs ops σ f log) {log' : List Entry} (h' : Logs ops σ f log') : log' = log := by
  induction h generalizing log' with
  | done =>
    cases h'
    rfl
  | op hdraws _ ih =>
    cases h' with
    | op hdraws' hlog' =>
      obtain rfl := hdraws.counters.trans hdraws'.counters.symm
      rw [ih hlog', hdraws.temps_eq.2, hdraws'.temps_eq.2]

/-- Later temporaries have greater numbers. -/
theorem temps (h : Logs ops σ f log) : (log.flatMap (·.temps)).Nodup ∧
    ∀ name ∈ log.flatMap (·.temps), ∃ n, f.temps < n ∧ name = tempName n := by
  induction h with
  | done => exact ⟨List.nodup_nil, by simp⟩
  | @op op ops σ f f' temps log hdraws _ ih =>
    obtain ⟨hupto, rfl⟩ := hdraws.temps_eq
    obtain ⟨hnodup, hrest⟩ := ih
    rw [List.flatMap_cons]
    refine ⟨List.nodup_append.mpr ⟨nodup_freeTemps σ _ _, hnodup, ?_⟩, ?_⟩
    · -- the first name is numbered up to the counter that the operation left, the later one above it
      rintro name hfirst later hlater rfl
      obtain ⟨⟨m, _, hm, rfl⟩, _⟩ := mem_freeTemps.mp hfirst
      obtain ⟨n, hn, heq⟩ := hrest _ hlater
      have := tempName_inj heq
      omega
    · intro name hname
      rcases List.mem_append.mp hname with hfirst | hlater
      · obtain ⟨⟨n, hn, _, rfl⟩, _⟩ := mem_freeTemps.mp hfirst
        exact ⟨n, hn, rfl⟩
      · obtain ⟨n, hn, rfl⟩ := hrest name hlater
        exact ⟨n, Nat.lt_of_le_of_lt hupto.temps hn, rfl⟩

theorem undeclared (h : Logs ops σ f log) : ∀ entry ∈ log, ∀ name ∈ entry.temps,
    σ.symbols.isDeclared entry.method name = false := by
  induction h with
  | done => simp
  | @op op ops σ f f' temps log hdraws _ ih =>
    rw [op.symbols_scope] at ih
    refine List.forall_mem_cons.mpr ⟨?_, ih⟩
    intro name hname
    rw [hdraws.temps_eq.2] at hname
    exact (mem_freeTemps.mp hname).2

/-- The labels of all code that comes back are numbered in the order of the operations. -/
theorem labels (h : Logs ops σ f log) : ∃ hi, f.labels ≤ hi ∧
    NumberedWithin f.labels hi ((log.filterMap (·.code)).flatMap labelsOf) := by
  induction h with
  | done => exact ⟨_, Nat.le_refl _, .nil⟩
  | @op op ops σ f f' temps log hdraws _ ih =>
    obtain ⟨hi, hle, hrest⟩ := ih
    have hupto := hdraws.temps_eq.1.labels
    refine ⟨hi, Nat.le_trans hupto hle, ?_⟩
    cases hcode : returned (op.step σ) f with
    | none =>
      simp only [List.filterMap_cons]
      exact NumberedWithin.nil.append hrest hupto hle
    | some code =>
      have hyields := yields_of_returned hcode
      rw [← hdraws.counters] at hyields
      simp only [List.filterMap_cons, List.flatMap_cons]
      exact (Op.code_of_step hyields).1.append hrest hupto hle

theorem selfContained (h : Logs ops σ f log) :
    ∀ code ∈ log.filterMap (·.code), SelfContained code := by
  induction h with
  | done => simp
  | @op op ops σ f f' temps log _ _ ih =>
    cases hcode : returned (op.step σ) f with
    | none =>
      simp only [List.filterMap_cons]
      exact ih
    | some code =>
      simp only [List.filterMap_cons]
      exact List.forall_mem_cons.mpr ⟨(Op.code_of_step (yields_of_returned hcode)).2, ih⟩

end Logs

theorem isDeclared_of_field {t : SymbolTable} {method name : String}
    (h : name ∈ t.fields.map (·.name)) : t.isDeclared method name = true := by
  obtain ⟨s, hs, rfl⟩ := List.mem_map.mp h
  have hfind : (t.fields.find? fun x => x.name == s.name).isSome = true := by
    rw [List.find?_isSome]
    exact ⟨s, hs, by simp⟩
  simp [SymbolTable.isDeclared, SymbolTable.resolve?, SymbolTable.field?, hfind]

/-- Generated names are never captured or reused. Every session has exactly one record. All
temporaries in it are different, and each differs from the local variables and parameters of the
method it was handed out in and from all fields. No label is defined twice in the code that has come
back, and each piece of code defines the labels it jumps to. -/
theorem session_names_fresh (symbols : SymbolTable) (ops : List Op) :
    ∃ log, Logs ops { symbols } {} log ∧ (∀ log', Logs ops { symbols } {} log' → log' = log) ∧
      (log.flatMap (·.temps)).Nodup ∧
      (∀ entry ∈ log, ∀ name ∈ entry.temps, ¬ HasLocal symbols entry.method name ∧
        ¬ HasParam symbols entry.method name ∧ name ∉ symbols.fields.map (·.name)) ∧
      ((log.filterMap (·.code)).flatMap labelsOf).Nodup ∧
      ∀ code ∈ log.filterMap (·.code), ∀ label ∈ jumpsOf code, label ∈ labelsOf code := by
  obtain ⟨log, hlog⟩ := exists_logs ops { symbols } {}
  obtain ⟨_, _, hlabels⟩ := hlog.labels
  refine ⟨log, hlog, fun _ => hlog.unique, hlog.temps.1, ?_, hlabels.nodup, ?_⟩
  · intro entry hentry name hname
    have hfree : ¬ symbols.isDeclared entry.method name = true := by
      rw [hlog.undeclared entry hentry name hname]
      exact Bool.false_ne_true
    exact ⟨fun h => hfree (isDeclared_of_hasLocal h), fun h => hfree (isDeclared_of_hasParam h),
      fun h => hfree (isDeclared_of_field h)⟩
  · intro code hcode label hlabel
    exact (hlog.selfContained code hcode).targets label hlabel

end JavaMinus.Lowering
