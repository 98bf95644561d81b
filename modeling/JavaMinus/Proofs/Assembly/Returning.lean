import JavaMinus.Proofs.Assembly.ControlFlow

/-!
# Bodies that return

The body of an emitted method, seen from the flat code it comes from: each label stays and each
instruction becomes its block. Control that enters the lines of a statement that returns on every path
does not leave them.
-/

namespace JavaMinus.Assembly

open JavaMinus.Behaviour
open JavaMinus.Flat (Instr Item Code Step attachLabels labelsOf)
open JavaMinus.Lowering (SelfContained LowersStmt jumpsOf Scope Fresh branchCode placeLabel)

/-! ### Code and its lines -/

inductive Expands (φ : Frame) : Code → List Line → Prop
  | nil : Expands φ [] []
  | label {rest : Code} {lines : List Line} (name : String) (hrest : Expands φ rest lines) :
      Expands φ (.label name :: rest) (.label name :: lines)
  | instr {i : Instr} {block : List Line} {n n' : Nat} {rest : Code} {lines : List Line}
      (hi : Emits φ i block n n') (hrest : Expands φ rest lines) :
      Expands φ (.instr i :: rest) (block ++ lines)

namespace Expands

variable {φ : Frame} {c d code : Code} {lines : List Line}

theorem parts (h : Expands φ (c ++ d) lines) :
    ∃ a b, lines = a ++ b ∧ Expands φ c a ∧ Expands φ d b := by
  induction c generalizing lines with
  | nil => exact ⟨[], lines, rfl, .nil, h⟩
  | cons item rest ih =>
    cases h with
    | label name hrest =>
      obtain ⟨a, b, rfl, ha, hb⟩ := ih hrest
      exact ⟨.label name :: a, b, rfl, .label name ha, hb⟩
    | instr hi hrest =>
      obtain ⟨a, b, rfl, ha, hb⟩ := ih hrest
      exact ⟨_ ++ a, b, (List.append_assoc _ _ _).symm, .instr hi ha, hb⟩

theorem labels (h : Expands φ code lines) : ∀ name ∈ labelsOf code, name ∈ lineLabels lines := by
  induction h with
  | nil => simp
  | label name _ ih =>
    intro name' hname
    rw [Flat.labelsOf_label, List.mem_cons] at hname
    rw [lineLabels_label, List.mem_cons]
    exact hname.imp_right (ih name')
  | instr _ _ ih =>
    intro name hname
    rw [lineLabels_append, List.mem_append]
    exact .inr (ih name hname)

theorem jumps (h : Expands φ code lines) :
    ∀ name ∈ lineJumps lines, name ∈ lineLabels lines ∨ name ∈ jumpsOf code := by
  induction h with
  | nil => simp
  | label _ _ ih =>
    intro name hname
    rw [lineLabels_label, List.mem_cons, Lowering.jumpsOf_label]
    exact (ih name (by simpa [Line.target?] using hname)).imp_left .inr
  | instr hi _ ih =>
    intro name hname
    rw [lineJumps_append, List.mem_append] at hname
    rw [lineLabels_append, List.mem_append, Lowering.jumpsOf_instr, List.mem_append]
    rcases hname with hname | hname
    · rcases hi.jumps name hname with hname | htarget
      · exact .inl (.inl hname)
      · exact .inr (.inl (by simp [htarget]))
    · exact (ih name hname).imp .inr .inr

theorem inside (h : Expands φ code lines) (hcode : SelfContained code) :
    ∀ name ∈ lineJumps lines, name ∈ lineLabels lines := by
  intro name hname
  rcases h.jumps name hname with hname | hname
  · exact hname
  · exact h.labels name (hcode.targets name hname)

end Expands

/-- A label at the end of code marks a line without effect. -/
def trailing (code : Code) : List Line :=
  match code.getLast? with
  | some (.label _) => [.op .nop]
  | _ => []

theorem trailing_instr (c : Code) (i : Instr) (d : Code) :
    trailing (c ++ .instr i :: d) = trailing d := by
  cases d with
  | nil => simp [trailing]
  | cons item rest =>
    have hlast : (c ++ .instr i :: item :: rest).getLast? = (item :: rest).getLast? := by
      rw [List.getLast?_append, List.getLast?_cons_cons]
      simp [List.getLast?_cons]
    rw [trailing, trailing, hlast]

theorem trailing_labels (name : String) (names : List String) :
    trailing ((name :: names).map .label ++ []) = [.op .nop] := by
  have hlast : ∃ last, ((name :: names).map Item.label ++ []).getLast? = some (.label last) := by
    rw [List.append_nil, List.getLast?_map, List.getLast?_cons]
    exact ⟨_, rfl⟩
  obtain ⟨last, hlast⟩ := hlast
  rw [trailing, hlast]

theorem emits_nop {φ : Frame} {block : List Line} {n n' : Nat} (h : Emits φ .nop block n n') :
    block = [.op .nop] := by
  cases h with
  | nop => rfl
  | discard h => cases h

theorem EmitsAll.expands {φ : Frame} {steps : List Step} {blocks : List (List Line)}
    {σ σ' : EmitState} (h : EmitsAll φ steps blocks σ σ') {code : Code} {pending : List String}
    (hsteps : steps.map (fun s => (s.labels, s.instr)) = attachLabels code pending) :
    ∃ lines, Expands φ code lines ∧ layout steps blocks =
      pending.map .label ++ lines ++ trailing (pending.map .label ++ code) := by
  induction code generalizing pending steps blocks σ with
  | nil =>
    refine ⟨[], .nil, ?_⟩
    cases pending with
    | nil =>
      obtain rfl : steps = [] := by simpa [attachLabels] using hsteps
      rfl
    | cons name pending =>
      cases h with
      | nil => simp [attachLabels] at hsteps
      | @cons s steps block blocks _ σ₁ _ hs hrest =>
        simp only [attachLabels, List.map_cons, List.cons.injEq, Prod.mk.injEq,
          List.map_eq_nil_iff] at hsteps
        obtain ⟨⟨hlabels, hinstr⟩, rfl⟩ := hsteps
        rw [hinstr] at hs
        obtain rfl := emits_nop (instruction_emits hs)
        rw [layout, trailing_labels, hlabels, show layout [] blocks = [] from rfl]
        simp
  | cons item rest ih =>
    cases item with
    | label name =>
      have hsteps' : steps.map (fun s => (s.labels, s.instr)) =
          attachLabels rest (pending ++ [name]) := hsteps
      obtain ⟨lines, hlines, hlayout⟩ := ih h hsteps'
      refine ⟨.label name :: lines, .label name hlines, ?_⟩
      simpa using hlayout
    | instr i =>
      cases h with
      | nil => simp [attachLabels] at hsteps
      | @cons s steps block blocks _ σ₁ _ hs hrest =>
        simp only [attachLabels, List.map_cons, List.cons.injEq, Prod.mk.injEq] at hsteps
        obtain ⟨⟨rfl, rfl⟩, hsteps⟩ := hsteps
        obtain ⟨lines, hlines, hlayout⟩ := ih hrest hsteps
        refine ⟨block ++ lines, .instr (instruction_emits hs) hlines, ?_⟩
        rw [trailing_instr, layout, hlayout]
        simp

/-! ### Returns -/

def Op.isReturn : Op → Bool
  | .ret | .retValue _ => true
  | _ => false

theorem falls_of_isReturn {o : Op} (h : o.isReturn = true) : (Line.op o).falls = false := by
  cases o with
  | ret | retValue => rfl
  | _ => simp [Op.isReturn] at h

theorem target?_of_isReturn {o : Op} (h : o.isReturn = true) : (Line.op o).target? = none := by
  cases o with
  | ret | retValue => rfl
  | _ => simp [Op.isReturn] at h

theorem emits_ret {φ : Frame} {value : Option Flat.Operand} {block : List Line} {n n' : Nat}
    (h : Emits φ (.ret value) block n n') :
    ∃ front o, block = front ++ [.op o] ∧ o.isReturn = true ∧ lineJumps front = [] := by
  cases h with
  | retNone => exact ⟨[], .ret, rfl, rfl, rfl⟩
  | ret _ h => exact ⟨_, _, rfl, rfl, h.jumps⟩
  | discard h => cases h

theorem Expands.ends_ret {φ : Frame} {c : Code} {value : Option Flat.Operand} {lines : List Line}
    (h : Expands φ (c ++ [.instr (.ret value)]) lines) :
    ∃ a front o, lines = a ++ front ++ [.op o] ∧ o.isReturn = true ∧ Expands φ c a ∧
      lineJumps front = [] := by
  obtain ⟨a, b, rfl, ha, hb⟩ := h.parts
  cases hb with
  | instr hi hrest =>
    cases hrest with
    | nil =>
      obtain ⟨front, o, rfl, ho, hfront⟩ := emits_ret hi
      exact ⟨a, front, o, by simp, ho, ha, hfront⟩

/-! ### Lines that control does not leave -/

/-- Control that comes to line `pc` stays among the `n` lines from there on. -/
def Keeps (body : List Line) (pc n : Nat) : Prop :=
  ∃ region, Stays body region ∧ region pc ∧ ∀ i, region i → pc ≤ i ∧ i < pc + n

section Keeps

variable {body a b : List Line} {pc : Nat}

theorem keeps_last {line : Line} (hget : body[pc]? = some line) (hfalls : line.falls = false)
    (htarget : line.target? = none) : Keeps body pc 1 := by
  refine ⟨(· = pc), ?_, rfl, ?_⟩
  · rintro i j rfl ⟨line', hget', hleads⟩
    obtain rfl : line = line' := by simpa [hget] using hget'
    simp [hfalls, htarget] at hleads
  · intro i hi
    omega

theorem Keeps.after (hplaced : Placed body pc (a ++ b)) (hbody : (lineLabels body).Nodup)
    (hjumps : ∀ name ∈ lineJumps a, name ∈ lineLabels a)
    (hb : Keeps body (pc + a.length) b.length) : Keeps body pc (a ++ b).length := by
  obtain ⟨region, hstays, hstart, hrange⟩ := hb
  -- Where the first lines are over, control is at the start of the region.
  have hnext (j : Nat) (hj : pc ≤ j ∧ j ≤ pc + a.length) :
      (pc ≤ j ∧ j < pc + a.length) ∨ region j := by
    by_cases hend : j = pc + a.length
    · exact .inr (hend ▸ hstart)
    · exact .inl (by omega)
  refine ⟨fun i => (pc ≤ i ∧ i < pc + a.length) ∨ region i, ?_, ?_, ?_⟩
  · rintro i j (hi | hi) hleads
    · have hinside : ∀ name ∈ lineJumps a, name ∈ lineLabels a ∨ name ∈ [] := fun name hname =>
        .inl (hjumps name hname)
      rcases leads_from hplaced.left hbody hinside hi hleads with hj | ⟨name, hmem, _⟩
      · exact hnext j hj
      · simp at hmem
    · exact .inr (hstays i j hi hleads)
  · exact hnext pc (by omega)
  · rw [List.length_append]
    rintro i (hi | hi)
    · omega
    · have := hrange i hi
      omega

/-- A test with a jump to a label comes before two groups of lines that keep control: the second one
stands behind the label. -/
theorem Keeps.choice {test second between first : List Line} {name : String}
    (hplaced : Placed body pc (test ++ second ++ between ++ .label name :: first))
    (hbody : (lineLabels body).Nodup)
    (hjumps : ∀ l ∈ lineJumps test, l ∈ lineLabels test ∨ l ∈ [name])
    (hsecond : Keeps body (pc + test.length) second.length)
    (hfirst : Keeps body (pc + (test ++ second ++ between).length + 1) first.length) :
    Keeps body pc (test ++ second ++ between ++ .label name :: first).length := by
  obtain ⟨R, hR, hRstart, hRrange⟩ := hsecond
  obtain ⟨Q, hQ, hQstart, hQrange⟩ := hfirst
  have hlabel := hplaced.right
  have hplace := place?_of_placed hlabel hbody
  have hget := hlabel.get
  -- The lines in between are never entered, so the region leaves them out.
  refine ⟨fun i => (pc ≤ i ∧ i < pc + test.length) ∨ R i ∨
    i = pc + (test ++ second ++ between).length ∨ Q i, ?_, ?_, ?_⟩
  · rintro i j (hi | hi | rfl | hi) hleads
    · rcases leads_from hplaced.left.left.left hbody hjumps hi hleads with hj | ⟨l, hmem, hl⟩
      · by_cases hend : j = pc + test.length
        · exact .inr (.inl (hend ▸ hRstart))
        · exact .inl (by omega)
      · obtain rfl := List.mem_singleton.mp hmem
        rw [hplace, Option.some.injEq] at hl
        exact .inr (.inr (.inl hl.symm))
    · exact .inr (.inl (hR i j hi hleads))
    · obtain ⟨line, hget', hleads⟩ := hleads
      obtain rfl : Line.label name = line := Option.some.inj (hget.symm.trans hget')
      obtain rfl : j = pc + (test ++ second ++ between).length + 1 := by
        simpa [Line.falls, Line.target?] using hleads
      exact .inr (.inr (.inr hQstart))
    · exact .inr (.inr (.inr (hQ i j hi hleads)))
  · by_cases hempty : test.length = 0
    · refine .inr (.inl ?_)
      rw [hempty] at hRstart
      exact hRstart
    · exact .inl (by omega)
  · intro i hi
    simp only [List.length_append, List.length_cons] at hQrange hi ⊢
    rcases hi with hi | hi | hi | hi
    · omega
    · have := hRrange i hi
      omega
    · omega
    · have := hQrange i hi
      omega

theorem Keeps.before (h : Keeps body pc a.length) : Keeps body pc (a ++ b).length := by
  obtain ⟨region, hstays, hstart, hrange⟩ := h
  refine ⟨region, hstays, hstart, fun i hi => ?_⟩
  have := hrange i hi
  rw [List.length_append]
  omega

theorem Keeps.unreached {n : Nat} (h : Keeps body 0 n) (hpc : n ≤ pc) : Unreached body pc := by
  obtain ⟨region, hstays, hstart, hrange⟩ := h
  apply hstays.unreached hstart
  intro hregion
  have := hrange pc hregion
  omega

end Keeps

theorem keeps_ret {body lines : List Line} {pc : Nat} {φ : Frame} {c : Code}
    {value : Option Flat.Operand} (hlines : Expands φ (c ++ [.instr (.ret value)]) lines)
    (hc : SelfContained c) (hplaced : Placed body pc lines) (hbody : (lineLabels body).Nodup) :
    Keeps body pc lines.length := by
  obtain ⟨a, front, o, rfl, ho, ha, hfront⟩ := hlines.ends_ret
  refine .after hplaced hbody ?_ ?_
  · intro name hname
    rw [lineJumps_append, hfront, List.append_nil] at hname
    rw [lineLabels_append]
    exact List.mem_append_left _ (ha.inside hc name hname)
  · exact keeps_last hplaced.right.get (falls_of_isReturn ho) (target?_of_isReturn ho)

theorem keeps_branch {body lines : List Line} {pc n : Nat} {φ : Frame} {test : Code × Instr}
    {c d : Code} (hlines : Expands φ (branchCode n test c d) lines) (htest : SelfContained test.1)
    (hplaced : Placed body pc lines) (hbody : (lineLabels body).Nodup)
    (hc : ∀ a pc, Expands φ c a → Placed body pc a → Keeps body pc a.length)
    (hd : ∀ a pc, Expands φ d a → Placed body pc a → Keeps body pc a.length) :
    Keeps body pc lines.length := by
  obtain ⟨_, tail, rfl, hlines, _⟩ := hlines.parts
  obtain ⟨_, first, rfl, hlines, hfirst⟩ := hlines.parts
  obtain ⟨_, between, rfl, hlines, hbetween⟩ := hlines.parts
  obtain ⟨front, second, rfl, hfront, hsecond⟩ := hlines.parts
  cases hbetween with
  | @instr _ jump _ _ _ _ _ hrest =>
    cases hrest with
    | label _ hnil =>
      cases hnil with
      | nil =>
        have hregroup : front ++ second ++ (jump ++ [.label (placeLabel "then" n)]) ++ first =
            front ++ second ++ jump ++ .label (placeLabel "then" n) :: first := by simp
        rw [hregroup] at hplaced ⊢
        have hplaced := hplaced.left
        refine (Keeps.choice hplaced hbody ?_ ?_ ?_).before
        · intro l hl
          rcases hfront.jumps l hl with hmem | hmem
          · exact .inl hmem
          · rw [Lowering.jumpsOf_append, List.mem_append] at hmem
            rcases hmem with hmem | hmem
            · refine .inl (hfront.labels l ?_)
              rw [Flat.labelsOf_append]
              exact List.mem_append_left _ (htest.targets l hmem)
            · exact .inr hmem
        · exact hd second _ hsecond hplaced.left.left.right
        · exact hc first _ hfirst hplaced.right.tail

/-- Control does not leave the lines of a statement that returns on every path. -/
theorem keeps_stmt {σ : Scope} {s : Source.Stmt} {f f' : Fresh} {code : Code} {φ : Frame}
    {body lines : List Line} {pc : Nat} (h : LowersStmt σ s f code f')
    (hs : s.returns true = true) (hlines : Expands φ code lines) (hplaced : Placed body pc lines)
    (hbody : (lineLabels body).Nodup) : Keeps body pc lines.length := by
  induction h generalizing lines pc with
  | @seq span s' rest c d _ _ _ hc hrest ihs ihrest =>
    -- Only the last statement has to return; those before it may be anything.
    obtain ⟨a, b, rfl, ha, hb⟩ := hlines.parts
    cases rest with
    | nil => exact (ihs hs ha hplaced.left).before
    | cons _ _ =>
      exact .after hplaced hbody (ha.inside hc.selfContained) (ihrest hs hb hplaced.right)
  | ret =>
    exact keeps_ret (c := []) hlines .nil hplaced hbody
  | retValue hl => exact keeps_ret hlines hl.selfContained hplaced hbody
  | branch hcond _ _ ihd ihc =>
    simp only [Source.Stmt.returns, Bool.true_and, Bool.and_eq_true] at hs
    exact keeps_branch hlines hcond.selfContained hplaced hbody (fun a pc ha hp => ihc hs.1 ha hp)
      fun a pc ha hp => ihd hs.2 ha hp
  | done => simp [Source.Stmt.returns, Source.lastReturns] at hs
  | callStmt | exprStmt | assignNew | assignCall | retarget | copy | putField | store | oneArmed
  | loop => simp [Source.Stmt.returns] at hs

end JavaMinus.Assembly
