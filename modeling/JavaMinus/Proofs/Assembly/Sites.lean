import JavaMinus.Proofs.Assembly.Names
import JavaMinus.Proofs.Assembly.Returning
import JavaMinus.Proofs.Compilation
import JavaMinus.Proofs.Lowering.Sites

/-!
# Lines of calls and allocations

Each call and each allocation of a tree has one line in the emitted body, and these lines stand in the
order in which the tree is laid out. Constructors are called by lines of another kind, which belong to
allocations.
-/

namespace JavaMinus.Assembly

open JavaMinus.Flat (Ty Operand Instr Code Invocation forall₂_compose)
open JavaMinus.Lowering (Scope Fresh Stands Sited siteCall? isSite isSiteCall LowersMethod
  methodScope methodResult methodCode)
open JavaMinus.Source (Site SymbolTable bodySites)

/-- Lines that call a method or allocate an object. -/
def Line.isSite : Line → Bool
  | .op (.invoke .static _) | .op (.invoke .virtual _) | .op (.new _) => true
  | _ => false

/-! ### Lines of one instruction -/

def NoSites (lines : List Line) : Prop :=
  ∀ line ∈ lines, line.isSite = false

/-- The line of a call or allocation. -/
inductive SiteLine (φ : Frame) : Instr → Line → Prop
  | new (name : String) (method : Option String) (args : List Operand) (result : Ty) :
      SiteLine φ (.call .new (.classRef name) method args result)
        (.op (.new (resolveClass φ.cls.imports name)))
  | named {invocation : Invocation} {dispatch : Dispatch} {target : Operand} {name : String}
      {args : List Operand} {result : Ty} {values : List Line} {ref : MethodRef}
      (hdispatch : dispatch? invocation = some dispatch) (hargs : LoadsAll φ args values)
      (href : (linkage φ.cls).method? dispatch target name args result = some ref) :
      SiteLine φ (.call invocation target (some name) args result) (.op (.invoke dispatch ref))

/-- Of these lines only the one of the call, if there is one, is a site. -/
def Holds (φ : Frame) : Option Instr → List Line → Prop
  | none, lines => NoSites lines
  | some call, lines => ∃ before line after, lines = before ++ line :: after ∧ NoSites before ∧
      line.isSite = true ∧ SiteLine φ call line ∧ NoSites after

section Blocks

variable {φ : Frame} {lines more : List Line} {call? : Option Instr} {n n' : Nat}

theorem NoSites.nil : NoSites [] :=
  fun _ h => absurd h List.not_mem_nil

theorem NoSites.append (h : NoSites lines) (h' : NoSites more) : NoSites (lines ++ more) := by
  intro line hline
  rcases List.mem_append.mp hline with hline | hline
  · exact h line hline
  · exact h' line hline

theorem NoSites.single {line : Line} (h : line.isSite = false) : NoSites [line] := by
  intro line' hline
  obtain rfl := List.mem_singleton.mp hline
  exact h

theorem Loads.noSites {op : Operand} (h : Loads φ op lines) : NoSites lines := by
  induction h with
  | lit | self | cell => exact .single rfl
  | elem ty _ _ iha ihi => exact (iha.append ihi).append (.single rfl)

theorem LoadsAll.noSites {ops : List Operand} (h : LoadsAll φ ops lines) : NoSites lines := by
  induction h with
  | nil => exact .nil
  | cons hop _ ih => exact hop.noSites.append ih

theorem Receives.noSites {dispatch : Dispatch} {target : Operand}
    (h : Receives φ dispatch target lines) : NoSites lines := by
  cases h with
  | static => exact .nil
  | value _ h => exact h.noSites

theorem Holds.before (hmore : NoSites more) (h : Holds φ call? lines) :
    Holds φ call? (more ++ lines) := by
  cases call? with
  | none => exact hmore.append h
  | some call =>
    obtain ⟨before, line, after, rfl, hbefore, hsite, hline, hafter⟩ := h
    exact ⟨more ++ before, line, after, by rw [List.append_assoc], hmore.append hbefore, hsite, hline,
      hafter⟩

theorem Holds.after (h : Holds φ call? lines) (hmore : NoSites more) :
    Holds φ call? (lines ++ more) := by
  cases call? with
  | none => exact NoSites.append h hmore
  | some call =>
    obtain ⟨before, line, after, rfl, hbefore, hsite, hline, hafter⟩ := h
    exact ⟨before, line, after ++ more, by rw [List.append_assoc, List.cons_append], hbefore, hsite,
      hline, hafter.append hmore⟩

theorem Calls.holds {invocation : Invocation} {target : Operand} {method : Option String}
    {args : List Operand} {result : Ty} {hasValue : Bool}
    (h : Calls φ invocation target method args result lines hasValue) :
    Holds φ (siteCall? (.call invocation target method args result)) lines := by
  cases h with
  | newArray _ _ _ hsize => exact hsize.noSites.append (.single rfl)
  | @newObject name _ _ _ hname =>
    have hsite : isSiteCall .new (.classRef name) args = true := by simp [isSiteCall, hname]
    rw [siteCall?, hsite, if_pos rfl]
    exact ⟨[], _, [], rfl, .nil, rfl, .new name method args result, .nil⟩
  | arrayLength _ _ _ htarget => exact htarget.noSites.append (.single rfl)
  | named hdispatch hreceiver hargs href =>
    refine Holds.before (hreceiver.noSites.append hargs.noSites) ?_
    cases invocation with
    | static | virtual =>
      obtain rfl := Option.some.inj hdispatch
      exact ⟨[], _, [], rfl, .nil, rfl, .named rfl hargs href, .nil⟩
    | special =>
      obtain rfl := Option.some.inj hdispatch
      exact NoSites.single rfl
    | new | arrayLength => cases hdispatch

theorem Pushes.holds {i : Instr} (h : Pushes φ i lines n n') : Holds φ (siteCall? i) lines := by
  cases h with
  | single _ h => exact h.noSites
  | arith _ _ hl hr => exact (hl.noSites.append hr.noSites).append (.single rfl)
  | compare _ _ hl hr =>
    refine (hl.noSites.append hr.noSites).append fun line hline => ?_
    simp only [compareLines, List.mem_cons, List.not_mem_nil, or_false] at hline
    rcases hline with rfl | rfl | rfl | rfl | rfl | rfl <;> rfl
  | not _ h => exact h.noSites.append ((NoSites.single rfl).append (.single rfl))
  | getField _ hobject _ => exact hobject.noSites.append (.single rfl)
  | call _ h => exact h.holds

theorem Emits.holds {i : Instr} (h : Emits φ i lines n n') : Holds φ (siteCall? i) lines := by
  cases h with
  | assignElem _ _ ha hi hv =>
    exact (Holds.before (ha.noSites.append hi.noSites) hv.holds).after (.single rfl)
  | assignCell _ _ _ hv => exact hv.holds.after (.single rfl)
  | retNone | goto | nop => exact NoSites.single rfl
  | ret _ h => exact h.noSites.append (.single rfl)
  | branchCompare _ _ _ hl hr => exact (hl.noSites.append hr.noSites).append (.single rfl)
  | branchNot _ _ h => exact h.noSites.append (.single rfl)
  | branchValue _ h => exact h.holds.after (.single rfl)
  | putField _ hobject hvalue _ =>
    exact (hobject.noSites.append hvalue.noSites).append (.single rfl)
  | callVoid _ h => exact h.holds
  | discard h => exact h.holds.after (.single rfl)

end Blocks

/-! ### Lines of code -/

/-- The lines start with the line of the call or allocation with which the code starts. -/
inductive Marks (φ : Frame) : Code → List Line → Prop
  | head {i call : Instr} {rest : Code} {block before after lines : List Line} {line : Line}
      {n n' : Nat} (hcall : siteCall? i = some call) (hi : Emits φ i block n n')
      (hblock : block = before ++ line :: after) (hbefore : NoSites before)
      (hline : SiteLine φ call line) (hrest : Expands φ rest lines) :
      Marks φ (.instr i :: rest) (line :: after ++ lines)

theorem tailsFrom_noSites {lines : List Line} (h : NoSites lines) :
    tailsFrom Line.isSite lines = [] :=
  tailsFrom_eq_nil h

/-- Code and lines have the same sites in the same order. -/
theorem Expands.marks {φ : Frame} {code : Code} {lines : List Line} (h : Expands φ code lines) :
    List.Forall₂ (Marks φ) (tailsFrom isSite code) (tailsFrom Line.isSite lines) := by
  induction h with
  | nil => exact .nil
  | label name _ ih =>
    rw [tailsFrom_cons_of_not rfl, tailsFrom_cons_of_not rfl]
    exact ih
  | @instr i block n n' rest lines hi hrest ih =>
    have hholds := hi.holds
    rw [tailsFrom_append]
    cases hcall : siteCall? i with
    | none =>
      rw [hcall] at hholds
      have hitem : isSite (.instr i) = false := by rw [isSite, hcall]; rfl
      rw [tailsFrom_cons_of_not hitem, tailsFrom_noSites hholds]
      exact ih
    | some call =>
      rw [hcall] at hholds
      obtain ⟨before, line, after, rfl, hbefore, hsite, hline, hafter⟩ := hholds
      have hitem : isSite (.instr i) = true := by rw [isSite, hcall]; rfl
      rw [tailsFrom_cons hitem, tailsFrom_append, tailsFrom_noSites hbefore, tailsFrom_cons hsite,
        tailsFrom_noSites hafter]
      exact .cons (.head hcall hi rfl hbefore hline hrest) ih

/-! ### Methods -/

theorem noSites_trailing (code : Code) : NoSites (trailing code) := by
  unfold trailing
  split
  · exact .single rfl
  · exact .nil

theorem noSites_closing (m : Flat.Method) : NoSites (closing m) := by
  unfold closing
  split
  · exact .single rfl
  · exact .nil

/-- The scope of the body of a declared method. -/
def bodyScope (symbols : SymbolTable) (decl : Source.Method) : Scope :=
  methodScope { symbols } decl ((methodResult { symbols } decl).toOption.getD .void)

/-- What holds where a site, its code and its line meet holds for each site of an emitted method. -/
theorem sites_of_emit {symbols : SymbolTable} {decl : Source.Method} {f f' : Fresh} {m : Flat.Method}
    {cls : Flat.Class} {table : SlotTable} {out : Method} {R : Site → List Line → Prop}
    (hm : LowersMethod { symbols } decl f m f') (hout : Method.emit cls m table = .ok out)
    (hmore : ∀ site tail more, R site tail → R site (tail ++ more))
    (hR : ∀ site code tail, Stands (bodyScope symbols decl) site code →
      Marks ⟨cls, m, table⟩ code tail → R site tail) :
    List.Forall₂ R (bodySites decl.body) (tailsFrom Line.isSite out.body) := by
  cases hm with
  | @method result params body _ _ _ hresult _ hbody hm =>
    have hscope : bodyScope symbols decl = methodScope { symbols } decl result := by
      rw [bodyScope, hresult]
      rfl
    have hsited : Sited (bodyScope symbols decl) (bodySites decl.body)
        (methodCode { symbols } decl result body) := by
      rw [hscope]
      exact hbody.sited.methodCode
    obtain ⟨blocks, σ, hemits, hlines⟩ := emit_body hout
    obtain ⟨lines, hexpands, hlayout⟩ := hemits.expands (Flat.Method.steps_eq_attachLabels hm)
    have hall : List.Forall₂ R (bodySites decl.body) (tailsFrom Line.isSite lines) :=
      forall₂_compose hsited hexpands.marks hR
    rw [hlines, hlayout, List.map_nil, List.nil_append, List.append_assoc, tailsFrom_append,
      tailsFrom_noSites ((noSites_trailing _).append (noSites_closing m)), List.append_nil,
      List.forall₂_map_right_iff]
    exact hall.imp fun site tail h => hmore site tail _ h

end JavaMinus.Assembly
