import JavaMinus.Proofs.Flat.Meaning
import JavaMinus.Proofs.Flat.Successors
import JavaMinus.Proofs.Liveness.Paths
import JavaMinus.Proofs.Lowering.ClassDerivation
import JavaMinus.Proofs.Lowering.ControlFlow
import JavaMinus.Proofs.Lowering.Types

/-!
# Temporaries are assigned before they are read

A temporary holds a value inside one expression. On every path through lowered code it is assigned
before it is read, so at the start of a method only declared variables can be live.

A place in code is the part of the code that is left there. `ReadAhead` follows the paths from a place
to a read of a name, and its number counts the instructions on the way: a loop may come back to the same
place, but with fewer of them ahead.
-/

namespace JavaMinus.Flat

open JavaMinus.Lowering (target?)

/-- At the place where `rest` is left of `code`, a path with at most `n` instructions leads to a read of
the name and no instruction on the way defines it. -/
inductive ReadAhead (code : Code) (v : String) : Nat → Code → Prop
  | label {n : Nat} {name : String} {rest : Code} :
      ReadAhead code v n rest → ReadAhead code v n (.label name :: rest)
  | read {i : Instr} {rest : Code} (n : Nat) :
      v ∈ i.reads → ReadAhead code v n (.instr i :: rest)
  | next {n : Nat} {i : Instr} {rest : Code} :
      i.defines? ≠ some v → ReadAhead code v n rest → ReadAhead code v (n + 1) (.instr i :: rest)
  | jump {n : Nat} {i : Instr} {name : String} {rest target : Code} :
      target? i = some name → .label name :: target <:+ code → ReadAhead code v n target →
      ReadAhead code v (n + 1) (.instr i :: rest)

section Places

variable {code c d rest target : Code} {v name : String} {n : Nat} {i : Instr} {names names' : List String}

theorem suffix_unique (hlabels : (labelsOf code).Nodup) (hc : .label name :: c <:+ code)
    (hd : .label name :: d <:+ code) : c = d := by
  obtain ⟨p, rfl⟩ := hc
  obtain ⟨q, heq⟩ := hd
  have hp := labelPlace?_append hlabels
  rw [← heq] at hlabels
  have hq := labelPlace?_append hlabels
  rw [heq, hp, Option.some.injEq] at hq
  obtain ⟨_, htail⟩ := List.append_inj heq hq.symm
  exact (List.cons.inj htail).2.symm

theorem not_readAhead_nil : ¬ ReadAhead code v n [] := by
  intro h
  cases h

theorem ReadAhead.of_label (h : ReadAhead code v n (.label name :: rest)) :
    ReadAhead code v n rest := by
  cases h with
  | label h => exact h

/-- Behind an instruction that does not read the name, the path goes on to the next place or to the
target of the jump. -/
theorem ReadAhead.of_instr (h : ReadAhead code v n (.instr i :: rest)) (hread : v ∉ i.reads) :
    (i.defines? ≠ some v ∧ ∃ k < n, ReadAhead code v k rest) ∨
      ∃ name target, target? i = some name ∧ .label name :: target <:+ code ∧
        ∃ k < n, ReadAhead code v k target := by
  cases h with
  | read _ h => exact absurd h hread
  | @next k _ _ hdef h => exact .inl ⟨hdef, k, by omega, h⟩
  | @jump k _ name _ target htarget hsuffix h => exact .inr ⟨name, target, htarget, hsuffix, k, by omega, h⟩

theorem ReadAhead.of_plain (h : ReadAhead code v n (.instr i :: rest)) (hread : v ∉ i.reads)
    (htarget : target? i = none) : i.defines? ≠ some v ∧ ∃ k < n, ReadAhead code v k rest := by
  rcases h.of_instr hread with h | ⟨_, _, h, _⟩
  · exact h
  · simp [htarget] at h

theorem ReadAhead.of_jump (hlabels : (labelsOf code).Nodup)
    (h : ReadAhead code v n (.instr i :: rest)) (hread : v ∉ i.reads) (htarget : target? i = some name)
    (hsuffix : .label name :: target <:+ code) :
    (∃ k < n, ReadAhead code v k rest) ∨ ∃ k < n, ReadAhead code v k target := by
  rcases h.of_instr hread with ⟨_, h⟩ | ⟨name', target', htarget', hsuffix', h⟩
  · exact .inl h
  · obtain rfl : name = name' := Option.some.inj (htarget.symm.trans htarget')
    obtain rfl := suffix_unique hlabels hsuffix hsuffix'
    exact .inr h

/-! ### Names that code supplies -/

/-- What holds of a piece `c` wherever it stands in `code`: a read of the name ahead is a read behind
the piece, and there is none if the name is among `names`. So every path through the piece assigns
those. -/
def Supplies (code : Code) (v : String) (c : Code) (names : List String) : Prop :=
  ∀ rest n, c ++ rest <:+ code → ReadAhead code v n (c ++ rest) →
    v ∉ names ∧ ∃ k ≤ n, ReadAhead code v k rest

namespace Supplies

theorem nil (h : v ∉ names) : Supplies code v [] names := by
  intro rest n _ hahead
  exact ⟨h, n, Nat.le_refl n, hahead⟩

theorem mono (h : Supplies code v c names) (hsub : v ∈ names' → v ∈ names) :
    Supplies code v c names' := by
  intro rest n hsuffix hahead
  obtain ⟨hv, hrest⟩ := h rest n hsuffix hahead
  exact ⟨fun hv' => hv (hsub hv'), hrest⟩

theorem silent (h : Supplies code v c names) : Supplies code v c [] :=
  h.mono fun hv => absurd hv List.not_mem_nil

theorem append (hc : Supplies code v c names) (hd : Supplies code v d names') :
    Supplies code v (c ++ d) (names ++ names') := by
  intro rest n hsuffix hahead
  rw [List.append_assoc] at hsuffix hahead
  obtain ⟨hv, k, hk, hmid⟩ := hc _ n hsuffix hahead
  obtain ⟨hv', j, hj, hrest⟩ := hd rest k ((List.suffix_append c _).trans hsuffix) hmid
  refine ⟨?_, j, by omega, hrest⟩
  rw [List.mem_append, not_or]
  exact ⟨hv, hv'⟩

/-- An instruction that reads what is supplied, and supplies what it defines. -/
theorem snoc (h : Supplies code v c i.reads) (htarget : target? i = none) :
    Supplies code v (c ++ [.instr i]) i.defines?.toList := by
  intro rest n hsuffix hahead
  rw [List.append_assoc] at hsuffix hahead
  obtain ⟨hread, k, hk, hmid⟩ := h _ n hsuffix hahead
  obtain ⟨hdef, j, hj, hrest⟩ := hmid.of_plain hread htarget
  exact ⟨fun hv => hdef (Option.mem_toList.mp hv), j, by omega, hrest⟩

end Supplies

end Places

/-! ### Steps and places -/

/-- What is left of the code at step `k`, with the labels before it. -/
def place : Code → Nat → Code
  | code, 0 => code
  | [], _ + 1 => []
  | .label _ :: rest, k + 1 => place rest (k + 1)
  | .instr _ :: rest, k + 1 => place rest k

@[simp] theorem place_zero (code : Code) : place code 0 = code := by
  rw [place]

/-- A step is an instruction of the code behind its labels, or it carries the labels at the end. -/
theorem place_of_attachLabels {code : Code} {pending labels : List String} {k : Nat} {i : Instr}
    (h : (attachLabels code pending)[k]? = some (labels, i)) :
    ∃ names,
      (place code k = names.map .label ++ .instr i :: place code (k + 1) ∧
        labels = (if k = 0 then pending else []) ++ names ∧ place code k <:+ code) ∨
      (place code k = names.map .label ∧ i = .nop ∧ k + 1 = (attachLabels code pending).length) := by
  induction code generalizing pending k with
  | nil =>
    refine ⟨[], .inr ?_⟩
    cases pending with
    | nil => simp [attachLabels] at h
    | cons name pending =>
      cases k with
      | zero => exact ⟨rfl, (congrArg Prod.snd (Option.some.inj h)).symm, rfl⟩
      | succ k => simp [attachLabels] at h
  | cons item rest ih =>
    cases item with
    | label name =>
      have hrest : (attachLabels rest (pending ++ [name]))[k]? = some (labels, i) := h
      obtain ⟨names, hcases⟩ := ih hrest
      cases k with
      | zero =>
        refine ⟨name :: names, ?_⟩
        rw [place_zero] at hcases ⊢
        rcases hcases with ⟨hplace, hlabels, _⟩ | ⟨hplace, hnop, hlast⟩
        · left
          refine ⟨congrArg (Item.label name :: ·) hplace, ?_, List.suffix_refl _⟩
          simpa using hlabels
        · exact .inr ⟨congrArg (Item.label name :: ·) hplace, hnop, hlast⟩
      | succ k =>
        refine ⟨names, ?_⟩
        rcases hcases with ⟨hplace, hlabels, hsuffix⟩ | hend
        · exact .inl ⟨hplace, by simpa using hlabels, hsuffix.trans (List.suffix_cons _ _)⟩
        · exact .inr hend
    | instr j =>
      cases k with
      | zero =>
        simp only [attachLabels, List.getElem?_cons_zero, Option.some.injEq, Prod.mk.injEq] at h
        obtain ⟨rfl, rfl⟩ := h
        rw [place_zero]
        exact ⟨[], .inl ⟨by simp [place], by simp, List.suffix_refl _⟩⟩
      | succ k =>
        simp only [attachLabels, List.getElem?_cons_succ] at h
        obtain ⟨names, ⟨hplace, hlabels, hsuffix⟩ | ⟨hplace, hnop, hlast⟩⟩ := ih h
        · refine ⟨names, .inl ⟨hplace, ?_, hsuffix.trans (List.suffix_cons _ _)⟩⟩
          simpa using hlabels
        · exact ⟨names, .inr ⟨hplace, hnop, by simpa [attachLabels] using hlast⟩⟩

section Steps

variable {header : Header} {code : Code} {m : Method} {v : String} {n : Nat}

theorem readAhead_labels {names : List String} {rest : Code} :
    ReadAhead code v n (names.map .label ++ rest) ↔ ReadAhead code v n rest := by
  induction names with
  | nil => exact Iff.rfl
  | cons name names ih => exact ⟨fun h => ih.mp h.of_label, fun h => (ih.mpr h).label⟩

theorem succ_cases {name : String} {body : List (List String × Instr)} {k id : Nat} {s : Step}
    (h : StepAt name body k s) (hid : id ∈ s.succs) :
    nextId body k = some id ∨
      ∃ label, target? s.instr = some label ∧ jumpTarget name body label = .ok id := by
  rcases (h.mem_succs_iff id).mp hid with ⟨_, hnext⟩ | ⟨label, htarget, hlabel⟩
  · exact .inl hnext
  · exact .inr ⟨label, htarget, jumpTarget_eq_ok.mpr hlabel⟩

/-- What is read ahead of a step is read ahead of the places behind its labels. -/
theorem readAhead_of_labelled {k : Nat} {s : Step} {label : String} {name : String}
    (hat : StepAt name (attachLabels code []) k s) (hlabel : label ∈ s.labels)
    (h : ReadAhead code v n (place code k)) :
    ∃ target, .label label :: target <:+ code ∧ ReadAhead code v n target := by
  obtain ⟨names, ⟨hplace, hlabels, hsuffix⟩ | ⟨hplace, _⟩⟩ := place_of_attachLabels hat.source
  · rw [ite_self, List.nil_append] at hlabels
    rw [hlabels] at hlabel
    obtain ⟨before, after, rfl⟩ := List.append_of_mem hlabel
    rw [List.map_append, List.map_cons, List.append_assoc, List.cons_append] at hplace
    rw [hplace] at h hsuffix
    exact ⟨_, (List.suffix_append _ _).trans hsuffix, (readAhead_labels.mp h).of_label⟩
  · rw [hplace, ← List.append_nil (names.map _), readAhead_labels] at h
    exact absurd h not_readAhead_nil

/-- A name that is live at a step is read ahead of the place of the step. -/
theorem readAhead_of_liveFrom (hm : Method.assemble header code = .ok m)
    (hlabels : (labelsOf code).Nodup) {id : Nat} (h : LiveFrom m.steps id v) :
    ∃ k n, id = k + 1 ∧ ReadAhead code v n (place code k) := by
  obtain ⟨_, hlen, hsteps⟩ := Method.steps_of_assemble hm
  induction h with
  | @read s v hs hread =>
    obtain ⟨k, hk⟩ := List.mem_iff_getElem?.mp hs
    have hat := hsteps k s hk
    refine ⟨k, 0, hat.id, ?_⟩
    obtain ⟨names, ⟨hplace, _⟩ | ⟨_, hnop, _⟩⟩ := place_of_attachLabels hat.source
    · rw [hplace, readAhead_labels]
      exact .read 0 hread
    · rw [hnop] at hread
      cases hread
  | @pass s id v hs hdef hsucc _ ih =>
    obtain ⟨k, hk⟩ := List.mem_iff_getElem?.mp hs
    have hat := hsteps k s hk
    obtain ⟨j, n, rfl, hahead⟩ := ih
    refine ⟨k, n + 1, hat.id, ?_⟩
    obtain ⟨names, ⟨hplace, _⟩ | ⟨_, hnop, hlast⟩⟩ := place_of_attachLabels hat.source
    · rw [hplace, readAhead_labels]
      rcases succ_cases hat hsucc with hnext | ⟨label, htarget, hjump⟩
      · have hj : j = k + 1 := by
          unfold nextId at hnext
          split at hnext
          · simpa using hnext.symm
          · cases hnext
        exact .next hdef (hj ▸ hahead)
      · obtain ⟨j', hindex, _, hj⟩ := Method.jump_target hm hlabels hjump
        obtain rfl : j = j' := by omega
        obtain ⟨t, ht, hlabel⟩ := Method.labelled_of_labelIndex? hindex
        obtain ⟨target, hsuffix, htarget'⟩ := readAhead_of_labelled (hsteps j t ht) hlabel hahead
        exact .jump htarget hsuffix htarget'
    · -- nothing follows the step that carries the labels at the end
      rcases succ_cases hat hsucc with hnext | ⟨label, htarget, _⟩
      · simp [nextId, hlast] at hnext
      · rw [hnop] at htarget
        cases htarget

theorem not_live_of_supplies (hm : Method.assemble header code = .ok m)
    (hlabels : (labelsOf code).Nodup) (h : Supplies code v code []) : ¬ LiveFrom m.steps 1 v := by
  intro hlive
  obtain ⟨k, n, hk, hahead⟩ := readAhead_of_liveFrom hm hlabels hlive
  obtain rfl : k = 0 := by omega
  rw [place_zero] at hahead
  have hwhole := h [] n
  rw [List.append_nil] at hwhole
  obtain ⟨_, _, _, hend⟩ := hwhole (List.suffix_refl code) hahead
  exact not_readAhead_nil hend

end Steps

end JavaMinus.Flat

namespace JavaMinus.Lowering

open JavaMinus.Flat (Ty Operand Instr Code Supplies ReadAhead labelsOf)

/-! ### Shapes of code -/

theorem reads_of_name? {op : Operand} {name : String} (h : op.name? = some name) : op.reads = [name] := by
  cases op with
  | var | param =>
    obtain rfl := Option.some.inj h
    rfl
  | lit | elem | self | classRef => cases h

theorem reads_assignTo {dest : Operand} {name : String} (h : dest.name? = some name) (rhs : Instr) :
    (Instr.assignTo dest rhs).reads = rhs.reads := by
  cases dest with
  | var | param => rfl
  | lit | elem | self | classRef => cases h

section Shapes

variable {code c d : Code} {v name : String} {n : Nat} {test : Code × Instr} {dest : Operand}

theorem supplies_assignTo (hdest : dest.name? = some name) (rhs : Instr)
    (h : Supplies code v c rhs.reads) :
    Supplies code v (c ++ [.instr (.assignTo dest rhs)]) [name] := by
  rw [← reads_assignTo hdest rhs] at h
  have hsnoc := h.snoc rfl
  rw [show (Instr.assignTo dest rhs).defines? = some name from hdest] at hsnoc
  exact hsnoc

theorem supplies_construct (hdest : dest.name? = some name) (cls : String) :
    Supplies code v (constructInto dest cls) [name] := by
  have hnew : Supplies code v [] (Instr.call .new (.classRef cls) none [] dest.ty).reads :=
    .nil List.not_mem_nil
  intro rest k hsuffix hahead
  obtain ⟨hv, k₁, hk₁, hahead⟩ := supplies_assignTo hdest _ hnew _ k hsuffix hahead
  have hread : v ∉ (Instr.call .special dest (some "<init>") [] .void).reads := by
    simpa [Instr.reads, reads_of_name? hdest] using hv
  obtain ⟨_, k₂, hk₂, hahead⟩ := hahead.of_plain hread rfl
  exact ⟨hv, k₂, by omega, hahead⟩

theorem supplies_logical (hlabels : (labelsOf code).Nodup) (hdest : dest.name? = some name)
    {op : Source.BinOp} {l r : Lowered} (hl : Supplies code v l.code l.result.reads)
    (hr : Supplies code v r.code r.result.reads) :
    Supplies code v (logicalCode op n dest l r) [name] := by
  have hleft := supplies_assignTo hdest (.single l.result) hl
  have hright := supplies_assignTo hdest (.single r.result) hr
  have hskip : (Instr.branch (skipTest op dest) (skipLabel op n)).reads = [name] := by
    rw [← reads_of_name? hdest]
    unfold skipTest
    split <;> rfl
  intro rest k hsuffix hahead
  have hshape : logicalCode op n dest l r ++ rest = (l.code ++ [.instr (.assignTo dest (.single l.result))]) ++
      (.instr (.branch (skipTest op dest) (skipLabel op n)) ::
        ((r.code ++ [.instr (.assignTo dest (.single r.result))]) ++ .label (skipLabel op n) :: rest)) := by
    simp [logicalCode]
  rw [hshape] at hsuffix hahead
  obtain ⟨hv, k₁, hk₁, hahead⟩ := hleft _ k hsuffix hahead
  have hbranch := (List.suffix_append _ _).trans hsuffix
  have hmid := (List.suffix_cons _ _).trans hbranch
  have hend := (List.suffix_append _ _).trans hmid
  rw [← hskip] at hv
  rcases hahead.of_jump hlabels hv rfl hend with ⟨k₂, hk₂, hahead⟩ | ⟨k₂, hk₂, hahead⟩
  · obtain ⟨hv, k₃, hk₃, hahead⟩ := hright _ k₂ hmid hahead
    exact ⟨hv, k₃, by omega, hahead.of_label⟩
  · rw [hskip] at hv
    exact ⟨hv, k₂, by omega, hahead⟩

theorem supplies_branch (hlabels : (labelsOf code).Nodup)
    (htest : Supplies code v test.1 test.2.reads) (hc : Supplies code v c [])
    (hd : Supplies code v d []) : Supplies code v (branchCode n test c d) [] := by
  intro rest k hsuffix hahead
  refine ⟨List.not_mem_nil, ?_⟩
  have hshape : branchCode n test c d ++ rest = test.1 ++
      (.instr (.branch test.2 (placeLabel "then" n)) :: (d ++
        (.instr (.goto (placeLabel "endif" n)) :: .label (placeLabel "then" n) ::
          (c ++ .label (placeLabel "endif" n) :: rest)))) := by
    simp [branchCode]
  rw [hshape] at hsuffix hahead
  obtain ⟨hv, k₁, hk₁, hahead⟩ := htest _ k hsuffix hahead
  have hbranch := (List.suffix_append _ _).trans hsuffix
  have helse := (List.suffix_cons _ _).trans hbranch
  have hleave := (List.suffix_append _ _).trans helse
  have hthen := (List.suffix_cons _ _).trans hleave
  have hend := (List.suffix_append _ _).trans ((List.suffix_cons _ _).trans hthen)
  have hbody : ∀ j, ReadAhead code v j (c ++ .label (placeLabel "endif" n) :: rest) → j ≤ k →
      ∃ j ≤ k, ReadAhead code v j rest := by
    intro j hahead hj
    obtain ⟨_, j', hj', hahead⟩ := hc _ j ((List.suffix_cons _ _).trans hthen) hahead
    exact ⟨j', by omega, hahead.of_label⟩
  rcases hahead.of_jump hlabels hv rfl hthen with ⟨k₂, hk₂, hahead⟩ | ⟨k₂, hk₂, hahead⟩
  · obtain ⟨_, k₃, hk₃, hahead⟩ := hd _ k₂ helse hahead
    rcases hahead.of_jump hlabels List.not_mem_nil rfl hend with ⟨k₄, hk₄, hahead⟩ | ⟨k₄, hk₄, hahead⟩
    · exact hbody k₄ hahead.of_label (by omega)
    · exact ⟨k₄, by omega, hahead⟩
  · exact hbody k₂ hahead (by omega)

theorem supplies_loop (hlabels : (labelsOf code).Nodup)
    (htest : Supplies code v test.1 test.2.reads) (hc : Supplies code v c []) :
    Supplies code v (loopCode n test c) [] := by
  intro rest k hsuffix hahead
  refine ⟨List.not_mem_nil, ?_⟩
  have hshape : loopCode n test c ++ rest = .label (placeLabel "whilecond" n) :: (test.1 ++
      (.instr (.branch test.2 (placeLabel "whilebody" n)) ::
        .instr (.goto (placeLabel "whileend" n)) :: .label (placeLabel "whilebody" n) ::
          (c ++ (.instr (.goto (placeLabel "whilecond" n)) ::
            .label (placeLabel "whileend" n) :: rest)))) := by
    simp [loopCode]
  rw [hshape] at hsuffix hahead
  have hcond := (List.suffix_cons _ _).trans hsuffix
  have hleave := (List.suffix_cons _ _).trans ((List.suffix_append _ _).trans hcond)
  have hlabel := (List.suffix_cons _ _).trans hleave
  have hbody := (List.suffix_cons _ _).trans hlabel
  have hend := (List.suffix_cons _ _).trans ((List.suffix_append _ _).trans hbody)
  replace hahead := hahead.of_label
  -- a path that goes round comes back to the test with fewer instructions ahead of it
  induction k using Nat.strongRecOn with
  | ind k ih =>
    have hround : ∀ j < k, ReadAhead code v j (c ++ (.instr (.goto (placeLabel "whilecond" n)) ::
        .label (placeLabel "whileend" n) :: rest)) → ∃ j ≤ k, ReadAhead code v j rest := by
      intro j hj hahead
      obtain ⟨_, j₁, hj₁, hahead⟩ := hc _ j hbody hahead
      rcases hahead.of_jump hlabels List.not_mem_nil rfl hsuffix with
        ⟨j₂, hj₂, hahead⟩ | ⟨j₂, hj₂, hahead⟩
      · exact ⟨j₂, by omega, hahead.of_label⟩
      · obtain ⟨j₃, hj₃, hahead⟩ := ih j₂ (by omega) hahead
        exact ⟨j₃, by omega, hahead⟩
    obtain ⟨hv, k₁, hk₁, hahead⟩ := htest _ k hcond hahead
    rcases hahead.of_jump hlabels hv rfl hlabel with ⟨k₂, hk₂, hahead⟩ | ⟨k₂, hk₂, hahead⟩
    · rcases hahead.of_jump hlabels List.not_mem_nil rfl hend with
        ⟨k₃, hk₃, hahead⟩ | ⟨k₃, hk₃, hahead⟩
      · exact hround k₃ (by omega) hahead.of_label
      · exact ⟨k₃, by omega, hahead⟩
    · exact hround k₂ (by omega) hahead

end Shapes

/-! ### Expressions -/

/-- The names that are read where the value of the piece is used. -/
def Piece.reads : Piece → List String
  | .expr _ _ l => l.result.reads
  | .receiver _ _ r => r.target.reads
  | .args _ _ _ operands => operands.flatMap Operand.reads
  | .call _ _ _ _ _ i => i.reads

/-- What is left of a fresh result when its binding is taken off supplies what the binding reads. -/
def Lowered.Unbound (code : Code) (v : String) (l : Lowered) : Prop :=
  ∀ c dest rhs, l = .computed c dest rhs → Supplies code v c rhs.reads

def Piece.Unbound (code : Code) (v : String) : Piece → Prop
  | .expr _ _ l => l.Unbound code v
  | .receiver .. | .args .. | .call .. => True

section Rules

variable {σ : Scope} {code : Code} {v : String} {f f' : Fresh}

theorem not_mem_reads_of_slot (hv : σ.symbols.isDeclared σ.method v = false) {name : String}
    {op : Operand} (h : σ.slotOperand? name = .ok (some op)) : v ∉ op.reads := by
  have hname : op.reads = [name] := by
    rcases slotOperand?_cases h with ⟨_, _, _, rfl⟩ | ⟨_, _, _, _, rfl⟩ <;> rfl
  obtain ⟨b, hb, _⟩ := slotOperand?_type h
  rw [hname, List.mem_singleton]
  rintro rfl
  simp [Source.SymbolTable.isDeclared, hb] at hv

/-- A value computed into a temporary. -/
theorem computed_supplies {c : Code} {rhs : Instr} (ty : Ty) (h : Supplies code v c rhs.reads) :
    Supplies code v (Lowered.computed c (σ.temp f ty) rhs).code (σ.temp f ty).reads ∧
      (Lowered.computed c (σ.temp f ty) rhs).Unbound code v := by
  refine ⟨supplies_assignTo rfl rhs h, ?_⟩
  intro c' dest rhs' heq
  obtain ⟨rfl, _, rfl⟩ := computed_inj heq
  exact h

theorem unbound_of_not_fresh {l : Lowered} (h : l.fresh = false) : l.Unbound code v := by
  rintro c dest rhs rfl
  cases h

theorem LowersName.supplies {name : String} {l : Lowered} (h : LowersName σ name f l f')
    (hv : σ.symbols.isDeclared σ.method v = false) :
    Supplies code v l.code l.result.reads ∧ l.Unbound code v := by
  cases h with
  | slot hslot => exact ⟨.nil (not_mem_reads_of_slot hv hslot), unbound_of_not_fresh rfl⟩
  | cls => exact ⟨.nil List.not_mem_nil, unbound_of_not_fresh rfl⟩
  | field => exact computed_supplies _ (.nil List.not_mem_nil)

theorem LowersIndex.supplies {idx l : Lowered} (h : LowersIndex σ idx f l f')
    (hidx : Supplies code v idx.code idx.result.reads) : Supplies code v l.code l.result.reads := by
  cases h with
  | literal => exact supplies_assignTo rfl (.single idx.result) hidx
  | other => exact hidx

theorem Lowers.supplies (hlabels : (labelsOf code).Nodup)
    (hv : σ.symbols.isDeclared σ.method v = false) {p : Piece} (h : Lowers σ p f f') :
    Supplies code v p.code p.reads ∧ p.Unbound code v := by
  induction h with
  | int | bool | self => exact ⟨.nil List.not_mem_nil, unbound_of_not_fresh rfl⟩
  | name h => exact h.supplies hv
  | paren _ ih => exact ih
  | not _ ih => exact computed_supplies _ ih.1
  | logical _ _ _ ihl ihr =>
    exact ⟨supplies_logical hlabels rfl ihl.1 ihr.1, unbound_of_not_fresh rfl⟩
  | binary _ _ _ ihl ihr => exact computed_supplies _ (ihl.1.append ihr.1)
  | index _ _ _ _ hidx iha ihi =>
    exact computed_supplies _ (iha.1.append (hidx.supplies ihi.1))
  | length _ ih | newArray _ ih =>
    refine computed_supplies _ (ih.1.mono ?_)
    simp [Piece.reads, Instr.reads, Operand.reads]
  | callValue _ _ ih => exact computed_supplies _ ih.1
  | newObject => exact ⟨supplies_construct rfl _, unbound_of_not_fresh rfl⟩
  | selfReceiver | classReceiver | noArgs => exact ⟨.nil List.not_mem_nil, trivial⟩
  | valueReceiver _ _ _ _ _ ih => exact ⟨ih.1, trivial⟩
  | arg _ _ _ ihe ihrest => exact ⟨ihe.1.append ihrest.1, trivial⟩
  | call _ _ _ ihr ihargs => exact ⟨ihr.1.append ihargs.1, trivial⟩

theorem LowersCond.supplies (hlabels : (labelsOf code).Nodup)
    (hv : σ.symbols.isDeclared σ.method v = false) {cond : Source.Expr} {test : Code × Instr}
    (h : LowersCond σ cond test f f') : Supplies code v test.1 test.2.reads := by
  cases h with
  | direct h _ => exact (h.supplies hlabels hv).2 _ _ _ rfl
  | value h => exact (h.supplies hlabels hv).1

theorem LowersStmt.supplies (hlabels : (labelsOf code).Nodup)
    (hv : σ.symbols.isDeclared σ.method v = false) {s : Source.Stmt} {c : Code}
    (h : LowersStmt σ s f c f') : Supplies code v c [] := by
  induction h with
  | done => exact .nil List.not_mem_nil
  | ret =>
    have hreads : v ∉ (Instr.ret none).reads := List.not_mem_nil
    exact (Supplies.nil hreads).snoc rfl
  | seq _ _ ihs ihrest => exact ihs.append ihrest
  | callStmt _ h =>
    have hcode := (h.supplies hlabels hv).1
    obtain ⟨_, _, _, _, rfl⟩ := h.exists_call
    exact (hcode.snoc rfl).silent
  | exprStmt _ h => exact (h.supplies hlabels hv).1.silent
  | assignNew hdest => exact (supplies_construct (name?_of_slot hdest) _).silent
  | assignCall hdest _ h =>
    have hcode := (h.supplies hlabels hv).1
    exact (supplies_assignTo (name?_of_slot hdest) _ hcode).silent
  | retarget hdest h =>
    have hcode := (h.supplies hlabels hv).2 _ _ _ rfl
    exact (supplies_assignTo (name?_of_slot hdest) _ hcode).silent
  | @copy _ _ _ _ l _ _ hdest h =>
    have hcode := (h.supplies hlabels hv).1
    exact (supplies_assignTo (name?_of_slot hdest) (.single l.result) hcode).silent
  | @putField _ _ _ field l _ _ _ _ h =>
    have hcode := (h.supplies hlabels hv).1
    exact (Supplies.snoc (i := .putField σ.self field l.result) hcode rfl).silent
  | @store _ _ _ _ arr elem _ i l _ _ _ _ _ harr _ _ hi hidx hvalue =>
    have hplace := (harr.supplies hv).1.append (hidx.supplies (hi.supplies hlabels hv).1)
    have hcode := hplace.append (hvalue.supplies hlabels hv).1
    exact (Supplies.snoc (i := .assign (.elem arr.result i.result elem) elem (.single l.result))
      hcode rfl).silent
  | @retValue _ _ l _ _ h =>
    have hcode := (h.supplies hlabels hv).1
    exact (Supplies.snoc (i := .ret (some l.result)) hcode rfl).silent
  | branch hcond _ _ ihd ihc =>
    exact supplies_branch hlabels (hcond.supplies hlabels hv) ihc ihd
  | oneArmed hcond _ ihc =>
    exact supplies_branch hlabels (hcond.supplies hlabels hv) ihc (.nil List.not_mem_nil)
  | loop hcond _ ihc => exact supplies_loop hlabels (hcond.supplies hlabels hv) ihc

end Rules

/-! ### Methods -/

section Methods

variable {σ : Scope} {decl : Source.Method} {m : Flat.Method} {f f' : Fresh} {v : String}

theorem supplies_superInit {code : Code} (σ : Scope) : Supplies code v [superInit σ] [] := by
  have hreads : v ∉ (Instr.call .special σ.self (some "<init>") [] .void).reads := List.not_mem_nil
  exact (Supplies.nil hreads).snoc rfl

theorem supplies_closeBody {code c : Code} {result : Ty} (h : Supplies code v c []) :
    Supplies code v (closeBody result c) [] := by
  have hreads : v ∉ (Instr.ret none).reads := List.not_mem_nil
  unfold closeBody
  split
  · exact h.append ((Supplies.nil hreads).snoc rfl)
  · exact h

theorem supplies_methodCode {code body : Code} {result : Ty} (h : Supplies code v body []) :
    Supplies code v (methodCode σ decl result body) [] := by
  have hsuper : Supplies code v
      (if decl.isConstructor then [superInit (methodScope σ decl result)] else []) [] := by
    split
    · exact supplies_superInit _
    · exact .nil List.not_mem_nil
  exact supplies_closeBody (hsuper.append h)

/-- Only declared variables are live at the start of a method. -/
theorem LowersMethod.isDeclared_of_live (h : LowersMethod σ decl f m f')
    (hlive : LiveFrom m.steps 1 v) : σ.symbols.isDeclared decl.name v = true := by
  cases h with
  | @method result params body _ _ _ _ _ hbody hm =>
    rw [← Bool.not_eq_false]
    intro hv
    have hlabels : (labelsOf (methodCode σ decl result body)).Nodup := by
      rw [labelsOf_methodCode]
      exact hbody.numbered.nodup
    exact Flat.not_live_of_supplies hm hlabels
      (supplies_methodCode (hbody.supplies hlabels hv)) hlive

theorem not_live_defaultConstructor (h : defaultConstructor σ = .ok m) : ¬ LiveFrom m.steps 1 v :=
  Flat.not_live_of_supplies h (by simp [superInit]) (supplies_superInit σ)

end Methods

end JavaMinus.Lowering
