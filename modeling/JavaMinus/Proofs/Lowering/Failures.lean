import JavaMinus.Proofs.Lowering.ControlFlow
import JavaMinus.Proofs.Lowering.Shapes
import JavaMinus.Proofs.Lowering.Steps

/-!
# Failures of lowering

When lowering fails, the tree or its symbols are to blame: a name without meaning, a type that is not
known, a node that cannot stand where it does. The jumps of lowered code find their labels, so
numbering its instructions does not fail.
-/

namespace JavaMinus.Lowering

open JavaMinus.Flat (Code Header labelsOf attachLabels labelId? jumpTarget flatMap_attachLabels)

/-! ### Numbering -/

section Numbering

variable {header : Header} {code : Code}

theorem labelId?_isSome {label : String} (h : label ∈ labelsOf code) :
    ∃ id, labelId? (attachLabels code []) label = some id := by
  have hmem : label ∈ (attachLabels code []).flatMap (·.1) := by
    rw [flatMap_attachLabels]
    exact h
  obtain ⟨entry, hentry, hlabel⟩ := List.mem_flatMap.mp hmem
  obtain ⟨k, hk⟩ := List.mem_iff_getElem?.mp hentry
  have hfind : (((attachLabels code []).zipIdx 1).reverse.find? fun p =>
      p.1.1.contains label).isSome = true := by
    rw [List.find?_isSome]
    refine ⟨(entry, k + 1), ?_, by simpa using hlabel⟩
    rw [List.mem_reverse, List.mk_mem_zipIdx_iff_le_and_getElem?_sub]
    exact ⟨Nat.le_add_left 1 k, hk⟩
  obtain ⟨p, hp⟩ := Option.isSome_iff_exists.mp hfind
  exact ⟨p.2, by rw [labelId?, hp]; rfl⟩

theorem jumpTarget_external {name label : String} (h : label ∈ labelsOf code) :
    External (jumpTarget name (attachLabels code []) label) := by
  obtain ⟨id, hid⟩ := labelId?_isSome h
  unfold jumpTarget
  rw [hid]
  exact .ok id

/-- The instructions of self-contained code can be numbered. -/
theorem SelfContained.assemble_external (h : SelfContained code) :
    External (Flat.Method.assemble header code) := by
  refine External.bind (External.mapM ?_) fun _ _ => .pure _
  rintro ⟨⟨labels, i⟩, id⟩ hmem
  have hentry : (labels, i) ∈ attachLabels code [] := List.fst_mem_of_mem_zipIdx hmem
  have htarget : ∀ label, target? i = some label → label ∈ labelsOf code := by
    intro label hlabel
    rcases instr_of_attachLabels hentry with hi | hnop
    · exact h.targets label (List.mem_filterMap.mpr ⟨.instr i, hi, hlabel⟩)
    · rw [show i = .nop from hnop] at hlabel
      cases hlabel
  refine External.bind ?_ fun _ _ => .pure _
  cases i with
  | goto label => exact (jumpTarget_external (htarget label rfl)).bind fun _ _ => .pure _
  | branch cond label => exact (jumpTarget_external (htarget label rfl)).bind fun _ _ => .pure _
  | assign | binary | not | call | ret | getField | putField | single | nop => exact .pure _

end Numbering

/-! ### Lowering steps -/

/-- From any counters, the step fails only for external causes. -/
def Blameless {α : Type} (x : LowerM α) : Prop :=
  ∀ f, External (attempt x f).1

namespace Blameless

variable {α β : Type} {x : LowerM α}

theorem pure (a : α) : Blameless (pure a) :=
  fun _ => .ok a

theorem throw {e : Error} (h : e.isInternal = false) : Blameless (throw e : LowerM α) :=
  fun _ => .error h

theorem lift {r : Except Error α} (h : External r) : Blameless (liftM r : LowerM α) :=
  fun _ => h

theorem bind_yields {g : α → LowerM β} (hx : Blameless x)
    (hg : ∀ f a f', Yields x f a f' → Blameless (g a)) : Blameless (x >>= g) := by
  intro f
  have hfail := hx f
  rw [attempt_bind]
  rcases hr : attempt x f with ⟨r, f₁⟩
  rw [hr] at hfail
  cases r with
  | error e => exact .error (hfail e rfl)
  | ok a => exact hg f a f₁ hr f₁

theorem bind {g : α → LowerM β} (hx : Blameless x) (hg : ∀ a, Blameless (g a)) :
    Blameless (x >>= g) :=
  hx.bind_yields fun _ a _ _ => hg a

theorem throw_bind {e : Error} {g : α → LowerM β} (h : e.isInternal = false) :
    Blameless (MonadExcept.throw e >>= g) :=
  (throw h).bind_yields fun _ _ _ hyields => absurd hyields yields_throw

theorem ite {c : Prop} [Decidable c] {y : LowerM α} (hx : Blameless x) (hy : Blameless y) :
    Blameless (if c then x else y) := by
  split
  · exact hx
  · exact hy

theorem mapM {g : α → LowerM β} (h : ∀ a, Blameless (g a)) (as : List α) :
    Blameless (as.mapM g) := by
  induction as with
  | nil => exact .pure []
  | cons a as ih =>
    rw [List.mapM_cons]
    exact (h a).bind fun _ => ih.bind fun _ => .pure _

end Blameless

theorem Built.blameless {σ : Scope} {α : Type} {x : LowerM α} (h : Built σ x) : Blameless x := by
  induction h with
  | lift h => exact .lift h
  | freshTemp | freshLabel => exact fun _ => .ok _
  | bind _ _ ihx ihg => exact ihx.bind ihg

/-! ### Classes -/

section Classes

variable {σ : Scope}

theorem methodResult_external (decl : Source.Method) : External (methodResult σ decl) := by
  unfold methodResult
  split
  · split
    · exact .ok _
    · exact typeOf_external _
  · exact .ok _

theorem methodParams_external (decl : Source.Method) : External (methodParams σ decl) := by
  unfold methodParams
  split
  · exact External.mapM fun p _ => (typeOf_external _).bind fun _ _ => .pure _
  · exact .ok _

theorem lowerMethod_blameless (decl : Source.Method) : Blameless (lowerMethod σ decl) := by
  unfold lowerMethod
  refine .ite (.throw_bind rfl) ?_
  refine (Blameless.lift (methodResult_external decl)).bind fun result => ?_
  refine (Blameless.lift (methodParams_external decl)).bind fun params => ?_
  refine (lowerStmts_built _ _).blameless.bind_yields fun f body f' hbody => ?_
  have hderived := lowersStmts_of_yields _ _ {} _ _ _ hbody
  have hcode : SelfContained (methodCode σ decl result body) := hderived.selfContained.methodCode
  exact .lift hcode.assemble_external

theorem defaultConstructor_external : External (defaultConstructor σ) :=
  (SelfContained.instr rfl).assemble_external

theorem lowerMethods_blameless (decls : List Source.Method) : Blameless (lowerMethods σ decls) := by
  refine (Blameless.mapM lowerMethod_blameless decls).bind fun methods => .ite (.pure _) ?_
  exact (Blameless.lift defaultConstructor_external).bind fun _ => .pure _

theorem lowerFields_external : External (lowerFields σ) :=
  External.mapM fun _ _ => (typeOf_external _).bind fun _ _ => .pure _

/-- A class that cannot be lowered has itself to blame. -/
theorem lowerProgram_external (program : Source.Program) (symbols : Source.SymbolTable) :
    External (lowerProgram program symbols) := by
  unfold lowerProgram
  simp only
  split
  · exact .throw_bind rfl
  · refine lowerFields_external.bind fun fields _ => ?_
    exact (lowerMethods_blameless program.cls.methods {}).bind fun _ _ => .pure _

end Classes

end JavaMinus.Lowering
