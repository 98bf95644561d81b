import JavaMinus.Proofs.Lowering.ClassDerivation

/-!
# The instructions of lowered code

Every construct lays out the code of its parts one behind the other, with labels and a few
instructions of its own between them. So a property holds of all instructions of a construct if it
holds of those of its parts and of these few. A method has the instructions of its code, and one
without effect behind them if the code ends in a label.
-/

namespace JavaMinus.Flat

def Item.instr? : Item → Option Instr
  | .instr i => some i
  | .label _ => none

def instrsOf (code : Code) : List Instr :=
  code.filterMap Item.instr?

@[simp] theorem instrsOf_nil : instrsOf [] = [] := rfl

@[simp] theorem instrsOf_append (c d : Code) : instrsOf (c ++ d) = instrsOf c ++ instrsOf d :=
  List.filterMap_append

@[simp] theorem instrsOf_label (name : String) (rest : Code) :
    instrsOf (.label name :: rest) = instrsOf rest := rfl

@[simp] theorem instrsOf_instr (i : Instr) (rest : Code) :
    instrsOf (.instr i :: rest) = i :: instrsOf rest := rfl

theorem mem_instrsOf {i : Instr} {code : Code} : i ∈ instrsOf code ↔ .instr i ∈ code := by
  unfold instrsOf
  rw [List.mem_filterMap]
  constructor
  · rintro ⟨item, hitem, heq⟩
    cases item with
    | label => cases heq
    | instr j =>
      obtain rfl := Option.some.inj heq
      exact hitem
  · exact fun h => ⟨.instr i, h, rfl⟩

theorem map_instr_attachLabels (code : Code) (pending : List String) :
    ∃ extra, (attachLabels code pending).map (·.2) = instrsOf code ++ extra ∧
      (extra = [] ∨ extra = [.nop]) := by
  induction code generalizing pending with
  | nil =>
    cases pending with
    | nil => exact ⟨[], rfl, .inl rfl⟩
    | cons _ _ => exact ⟨[.nop], rfl, .inr rfl⟩
  | cons item rest ih =>
    cases item with
    | label name => exact ih (pending ++ [name])
    | instr i =>
      obtain ⟨extra, hextra, hnop⟩ := ih []
      exact ⟨extra, congrArg (i :: ·) hextra, hnop⟩

theorem map_instr_attachLabels_snoc (code : Code) (i : Instr) (pending : List String) :
    (attachLabels (code ++ [.instr i]) pending).map (·.2) = instrsOf code ++ [i] := by
  induction code generalizing pending with
  | nil => rfl
  | cons item rest ih =>
    cases item with
    | label name => exact ih (pending ++ [name])
    | instr j => exact congrArg (j :: ·) (ih [])

section Assembled

variable {header : Header} {code : Code} {m : Method}

theorem Method.map_instr (hm : assemble header code = .ok m) :
    m.steps.map (·.instr) = (attachLabels code []).map (·.2) := by
  rw [← steps_eq_attachLabels hm, List.map_map]
  rfl

/-- The instructions of a method are those of its code; a label at the end needs one more. -/
theorem Method.instrs_of_assemble (hm : assemble header code = .ok m) :
    ∃ extra, m.steps.map (·.instr) = instrsOf code ++ extra ∧ (extra = [] ∨ extra = [.nop]) := by
  rw [map_instr hm]
  exact map_instr_attachLabels code []

end Assembled

end JavaMinus.Flat

namespace JavaMinus.Lowering

open JavaMinus.Flat (Ty Operand Instr Item Code attachLabels instrsOf mem_instrsOf)

section Equations

variable {dest : Operand} {n : Nat} {test : Code × Instr} {c d : Code}

@[simp] theorem instrsOf_logical {op : Source.BinOp} {l r : Lowered} :
    instrsOf (logicalCode op n dest l r) =
      instrsOf l.code ++ [.assignTo dest (.single l.result),
        .branch (skipTest op dest) (skipLabel op n)] ++
      instrsOf r.code ++ [.assignTo dest (.single r.result)] := by
  simp [logicalCode]

@[simp] theorem instrsOf_branch :
    instrsOf (branchCode n test c d) =
      instrsOf test.1 ++ [.branch test.2 (placeLabel "then" n)] ++ instrsOf d ++
        [.goto (placeLabel "endif" n)] ++ instrsOf c := by
  simp [branchCode]

@[simp] theorem instrsOf_loop :
    instrsOf (loopCode n test c) =
      instrsOf test.1 ++ [.branch test.2 (placeLabel "whilebody" n),
        .goto (placeLabel "whileend" n)] ++ instrsOf c ++ [.goto (placeLabel "whilecond" n)] := by
  simp [loopCode]

end Equations

/-! ### Properties of all instructions -/

def Every (P : Instr → Prop) (code : Code) : Prop :=
  ∀ i, .instr i ∈ code → P i

namespace Every

variable {P : Instr → Prop} {c d : Code} {i : Instr} {dest : Operand} {n : Nat}
  {test : Code × Instr}

theorem nil : Every P [] :=
  fun _ hi => absurd hi List.not_mem_nil

theorem append (hc : Every P c) (hd : Every P d) : Every P (c ++ d) := by
  intro i hi
  rcases List.mem_append.mp hi with hi | hi
  · exact hc i hi
  · exact hd i hi

theorem label (name : String) (hc : Every P c) : Every P (.label name :: c) := by
  intro i hi
  rcases List.mem_cons.mp hi with heq | hi
  · cases heq
  · exact hc i hi

theorem instr (hc : Every P c) (hi : P i) : Every P (.instr i :: c) := by
  intro j hj
  rcases List.mem_cons.mp hj with heq | hj
  · obtain rfl := Item.instr.inj heq
    exact hi
  · exact hc j hj

theorem snoc (hc : Every P c) (hi : P i) : Every P (c ++ [.instr i]) :=
  hc.append (nil.instr hi)

theorem init (h : Every P (c ++ [.instr i])) : Every P c ∧ P i :=
  ⟨fun j hj => h j (List.mem_append_left _ hj), h i (by simp)⟩

theorem construct {cls : String}
    (hnew : P (.assignTo dest (.call .new (.classRef cls) none [] dest.ty)))
    (hinit : P (.call .special dest (some "<init>") [] .void)) : Every P (constructInto dest cls) :=
  (nil.instr hinit).instr hnew

theorem logical {op : Source.BinOp} {l r : Lowered} (hl : Every P l.code) (hr : Every P r.code)
    (hleft : P (.assignTo dest (.single l.result)))
    (hskip : P (.branch (skipTest op dest) (skipLabel op n)))
    (hright : P (.assignTo dest (.single r.result))) : Every P (logicalCode op n dest l r) :=
  ((hl.append ((nil.instr hskip).instr hleft)).append hr).append ((nil.label _).instr hright)

theorem branch (htest : Every P test.1) (hc : Every P c) (hd : Every P d)
    (hbranch : ∀ label, P (.branch test.2 label)) (hgoto : ∀ label, P (.goto label)) :
    Every P (branchCode n test c d) := by
  have hleave := (nil.label (placeLabel "then" n)).instr (hgoto (placeLabel "endif" n))
  exact ((((htest.snoc (hbranch _)).append hd).append hleave).append hc).append (nil.label _)

theorem loop (htest : Every P test.1) (hc : Every P c)
    (hbranch : ∀ label, P (.branch test.2 label)) (hgoto : ∀ label, P (.goto label)) :
    Every P (loopCode n test c) := by
  have hleave := (nil.label (placeLabel "whilebody" n)).instr (hgoto (placeLabel "whileend" n))
  have hback := (nil.label (placeLabel "whileend" n)).instr (hgoto (placeLabel "whilecond" n))
  exact ((((nil.label _).append htest).append (hleave.instr (hbranch _))).append hc).append hback

theorem closeBody {result : Ty} (hc : Every P c) (hret : P (.ret none)) :
    Every P (closeBody result c) := by
  unfold Lowering.closeBody
  split
  · exact hc.snoc hret
  · exact hc

theorem methodCode {σ : Scope} {decl : Source.Method} {result : Ty} (hc : Every P c)
    (hinit : P (.call .special σ.self (some "<init>") [] .void)) (hret : P (.ret none)) :
    Every P (methodCode σ decl result c) := by
  refine closeBody (append ?_ hc) hret
  split
  · exact nil.instr hinit
  · exact nil

end Every

section Assembled

variable {header : Flat.Header} {code : Code} {m : Flat.Method}

/-- Attaching labels adds at most an instruction without effect. -/
theorem instr_of_attachLabels {pending : List String} {entry : List String × Instr}
    (h : entry ∈ attachLabels code pending) : .instr entry.2 ∈ code ∨ entry.2 = .nop := by
  obtain ⟨extra, hinstrs, hextra⟩ := Flat.map_instr_attachLabels code pending
  have hmem : entry.2 ∈ instrsOf code ++ extra := by
    rw [← hinstrs]
    exact List.mem_map_of_mem h
  rcases List.mem_append.mp hmem with hmem | hmem
  · exact .inl (mem_instrsOf.mp hmem)
  · rcases hextra with rfl | rfl
    · cases hmem
    · exact .inr (List.mem_singleton.mp hmem)

theorem instr_of_assemble (hm : Flat.Method.assemble header code = .ok m) {s : Flat.Step}
    (hs : s ∈ m.steps) : .instr s.instr ∈ code ∨ s.instr = .nop := by
  have hentry : (s.labels, s.instr) ∈ attachLabels code [] := by
    rw [← Flat.Method.steps_eq_attachLabels hm]
    exact List.mem_map_of_mem hs
  exact instr_of_attachLabels hentry

theorem Every.steps {P : Instr → Prop} (h : Every P code) (hnop : P .nop)
    (hm : Flat.Method.assemble header code = .ok m) : ∀ s ∈ m.steps, P s.instr := by
  intro s hs
  rcases instr_of_assemble hm hs with hmem | heq
  · exact h _ hmem
  · rw [heq]
    exact hnop

end Assembled

end JavaMinus.Lowering
