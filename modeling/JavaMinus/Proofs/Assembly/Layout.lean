import JavaMinus.Proofs.Assembly.Derivation
import JavaMinus.Proofs.Assembly.Machine

/-!
# The layout of emitted bodies

Where the blocks of the steps stand in a body. Labels of the body are those of the steps and those
invented for comparisons; they are distinct, so a jump to a label of a step comes to its block.
-/

namespace JavaMinus.Assembly

open JavaMinus.Behaviour
open JavaMinus.Flat (Operand Instr Invocation Ty)
open JavaMinus.Lowering (placeLabel NumberedWithin)

/-! ### Labels of lines -/

def Line.label? : Line → Option String
  | .label name => some name
  | .op _ => none

def lineLabels (lines : List Line) : List String :=
  lines.filterMap Line.label?

@[simp] theorem lineLabels_nil : lineLabels [] = [] := rfl

@[simp] theorem lineLabels_append (a b : List Line) :
    lineLabels (a ++ b) = lineLabels a ++ lineLabels b :=
  List.filterMap_append

@[simp] theorem lineLabels_op (o : Op) (rest : List Line) :
    lineLabels (.op o :: rest) = lineLabels rest := rfl

@[simp] theorem lineLabels_label (label : String) (rest : List Line) :
    lineLabels (.label label :: rest) = label :: lineLabels rest := rfl

@[simp] theorem lineLabels_map_label (labels : List String) :
    lineLabels (labels.map .label) = labels := by
  induction labels with
  | nil => rfl
  | cons l rest ih => rw [List.map_cons, lineLabels_label, ih]

theorem place?_of_placed {body c : List Line} {pc : Nat} {label : String}
    (h : Placed body pc (.label label :: c)) (hbody : (lineLabels body).Nodup) :
    place? body label = some pc := by
  obtain ⟨before, after, rfl, rfl⟩ := h
  have hbefore : ∀ line ∈ before, (line == Line.label label) = false := by
    intro line hline
    simp only [beq_eq_false_iff_ne, ne_eq]
    rintro rfl
    have hmem : label ∈ lineLabels before := List.mem_filterMap.mpr ⟨_, hline, rfl⟩
    simp only [lineLabels_append, lineLabels_label, List.nodup_append, List.mem_append,
      List.mem_cons] at hbody
    exact hbody.1.2.2 label hmem label (.inl rfl) rfl
  unfold place?
  rw [List.append_assoc, List.findIdx?_append, List.findIdx?_eq_none_iff.mpr hbefore]
  simp [List.findIdx?_cons]

/-! ### Invented labels -/

/-- Labels that emission makes up while its counter goes from `n` to `n'`. -/
structure Invented (n n' : Nat) (labels : List String) : Prop where
  le : n ≤ n'
  numbered : NumberedWithin n n' labels
  lead : ∀ l ∈ labels, "cmp_".toList <+: l.toList

namespace Invented

variable {n n₁ n' : Nat} {ls ls' : List String}

theorem none (n : Nat) : Invented n n [] :=
  ⟨Nat.le_refl n, .nil, by simp⟩

theorem append (h : Invented n n₁ ls) (h' : Invented n₁ n' ls') : Invented n n' (ls ++ ls') := by
  refine ⟨Nat.le_trans h.le h'.le, h.numbered.append h'.numbered h.le h'.le, ?_⟩
  intro l hl
  rcases List.mem_append.mp hl with hl | hl
  · exact h.lead l hl
  · exact h'.lead l hl

theorem compare (n : Nat) :
    Invented n (n + 2) [placeLabel "cmp_true" n, placeLabel "cmp_end" (n + 1)] := by
  have hyes := NumberedWithin.places n (List.nodup_singleton "cmp_true")
  have hdone := NumberedWithin.places (n + 1) (List.nodup_singleton "cmp_end")
  refine ⟨by omega, hyes.append hdone (by omega) (by omega), ?_⟩
  have hlead (tail : String) (k : Nat) :
      "cmp_".toList <+: (placeLabel ("cmp_" ++ tail) k).toList := by
    simp only [placeLabel, String.toList_append, List.append_assoc]
    exact List.prefix_append ..
  simp only [List.mem_cons, List.not_mem_nil, or_false]
  rintro l (rfl | rfl)
  · exact hlead "true" n
  · exact hlead "end" (n + 1)

end Invented

section Labels

variable {φ : Frame} {lines : List Line}

theorem Loads.labels {op : Operand} (h : Loads φ op lines) : lineLabels lines = [] := by
  induction h with
  | lit | self | cell => rfl
  | elem ty _ _ iha ihi => simp [iha, ihi]

theorem LoadsAll.labels {ops : List Operand} (h : LoadsAll φ ops lines) : lineLabels lines = [] := by
  induction h with
  | nil => rfl
  | cons hop _ ih => simp [hop.labels, ih]

theorem Calls.labels {invocation : Invocation} {target : Operand} {method : Option String}
    {args : List Operand} {result : Ty} {hasValue : Bool}
    (h : Calls φ invocation target method args result lines hasValue) : lineLabels lines = [] := by
  cases h with
  | newArray _ _ _ hsize => simp [hsize.labels]
  | newObject => rfl
  | arrayLength _ _ _ htarget => simp [htarget.labels]
  | named _ hreceiver hargs _ =>
    cases hreceiver with
    | static => simp [hargs.labels]
    | value _ hload => simp [hargs.labels, hload.labels]

theorem Pushes.invented {i : Instr} {n n' : Nat} (h : Pushes φ i lines n n') :
    Invented n n' (lineLabels lines) := by
  cases h with
  | single _ h => simpa [h.labels] using Invented.none n
  | arith _ _ hl hr => simpa [hl.labels, hr.labels] using Invented.none n
  | compare _ _ hl hr => simpa [hl.labels, hr.labels, compareLines] using Invented.compare n
  | not _ h => simpa [h.labels] using Invented.none n
  | getField _ h _ => simpa [h.labels] using Invented.none n
  | call _ h => simpa [h.labels] using Invented.none n

theorem Emits.invented {i : Instr} {n n' : Nat} (h : Emits φ i lines n n') :
    Invented n n' (lineLabels lines) := by
  cases h with
  | assignElem _ _ ha hi hv => simpa [ha.labels, hi.labels] using hv.invented
  | assignCell _ _ _ hv => simpa using hv.invented
  | retNone | goto | nop => exact Invented.none n
  | ret _ h | branchNot _ _ h => simpa [h.labels] using Invented.none n
  | branchCompare _ _ _ hl hr => simpa [hl.labels, hr.labels] using Invented.none n
  | branchValue _ h | discard h => simpa using h.invented
  | putField _ ho hx _ => simpa [ho.labels, hx.labels] using Invented.none n
  | callVoid _ h => simpa [h.labels] using Invented.none n

theorem EmitsAll.invented {steps : List Flat.Step} {blocks : List (List Line)} {σ σ' : EmitState}
    (h : EmitsAll φ steps blocks σ σ') :
    Invented σ.labels σ'.labels (blocks.flatMap lineLabels) := by
  induction h with
  | nil σ => exact Invented.none σ.labels
  | cons hs _ ih => exact (instruction_emits hs).invented.append ih

end Labels

/-! ### Blocks -/

/-- The position of the first line of the block of step `k`, behind the labels of the step. For the
number of steps it is the position behind all blocks. -/
def startOf (steps : List Flat.Step) (blocks : List (List Line)) (k : Nat) : Nat :=
  (layout (steps.take k) (blocks.take k)).length + (steps[k]?.elim 0 fun s => s.labels.length)

section Blocks

variable {φ : Frame} {steps : List Flat.Step} {blocks : List (List Line)} {σ σ' : EmitState}
  {k : Nat} {s : Flat.Step} {block : List Line}

theorem EmitsAll.length_eq (h : EmitsAll φ steps blocks σ σ') : blocks.length = steps.length := by
  induction h with
  | nil => rfl
  | cons _ _ ih => rw [List.length_cons, List.length_cons, ih]

theorem EmitsAll.has_block (h : EmitsAll φ steps blocks σ σ') (hs : steps[k]? = some s) :
    ∃ block σ₁ σ₂, blocks[k]? = some block ∧ instruction φ s.instr σ₁ = .ok (block, σ₂) := by
  induction h generalizing k with
  | nil => simp at hs
  | @cons s' rest block' blocks' σ₁ σ₂ σ₃ hs' _ ih =>
    cases k with
    | zero =>
      obtain rfl : s' = s := by simpa using hs
      exact ⟨block', σ₁, σ₂, rfl, hs'⟩
    | succ k => exact ih (by simpa using hs)

theorem layout_split (hs : steps[k]? = some s) (hblock : blocks[k]? = some block) :
    layout steps blocks = layout (steps.take k) (blocks.take k) ++
      (s.labels.map .label ++ block ++ layout (steps.drop (k + 1)) (blocks.drop (k + 1))) := by
  induction k generalizing steps blocks with
  | zero =>
    cases steps with
    | nil => simp at hs
    | cons s' rest =>
      cases blocks with
      | nil => simp at hblock
      | cons block' blocks' =>
        obtain rfl : s' = s := by simpa using hs
        obtain rfl : block' = block := by simpa using hblock
        rfl
  | succ k ih =>
    cases steps with
    | nil => simp at hs
    | cons s' rest =>
      cases blocks with
      | nil => simp at hblock
      | cons block' blocks' =>
        have hrest := ih (by simpa using hs : rest[k]? = some s)
          (by simpa using hblock : blocks'[k]? = some block)
        simp only [layout, List.take_succ_cons, List.drop_succ_cons, List.append_assoc]
        rw [hrest]
        simp only [List.append_assoc]

theorem layout_take_succ (hs : steps[k]? = some s) (hblock : blocks[k]? = some block) :
    layout (steps.take (k + 1)) (blocks.take (k + 1)) =
      layout (steps.take k) (blocks.take k) ++ (s.labels.map .label ++ block) := by
  have hs' : (steps.take (k + 1))[k]? = some s := by
    rw [List.getElem?_take_of_lt (Nat.lt_succ_self k)]
    exact hs
  have hblock' : (blocks.take (k + 1))[k]? = some block := by
    rw [List.getElem?_take_of_lt (Nat.lt_succ_self k)]
    exact hblock
  have hnone : (steps.take (k + 1)).drop (k + 1) = [] := by simp
  have hnil (rest : List (List Line)) : layout [] rest = [] := rfl
  rw [layout_split hs' hblock', hnone, hnil, List.append_nil, List.take_take, List.take_take,
    Nat.min_eq_left (Nat.le_succ k)]

theorem startOf_eq (hs : steps[k]? = some s) :
    startOf steps blocks k = (layout (steps.take k) (blocks.take k)).length + s.labels.length := by
  simp [startOf, hs]

/-- The next step begins behind the block. -/
theorem length_take_succ (hs : steps[k]? = some s) (hblock : blocks[k]? = some block) :
    (layout (steps.take (k + 1)) (blocks.take (k + 1))).length =
      startOf steps blocks k + block.length := by
  rw [layout_take_succ hs hblock, startOf_eq hs]
  simp only [List.length_append, List.length_map]
  omega

theorem placed_step (tail : List Line) (hs : steps[k]? = some s) (hblock : blocks[k]? = some block) :
    Placed (layout steps blocks ++ tail) (layout (steps.take k) (blocks.take k)).length
      (s.labels.map .label ++ block) := by
  refine ⟨_, layout (steps.drop (k + 1)) (blocks.drop (k + 1)) ++ tail, ?_, rfl⟩
  rw [layout_split hs hblock]
  simp only [List.append_assoc]

theorem placed_block (tail : List Line) (hs : steps[k]? = some s) (hblock : blocks[k]? = some block) :
    Placed (layout steps blocks ++ tail) (startOf steps blocks k) block := by
  have h := (placed_step tail hs hblock).right
  rw [List.length_map] at h
  rw [startOf_eq hs]
  exact h

theorem reaches_labels {body : List Line} {labels : List String} {pc : Nat}
    (h : Placed body pc (labels.map .label)) (ω : Oracle) (x : Work) (w : World) :
    Reaches (stepLine? ω body) ⟨pc, x, w⟩ ⟨pc + labels.length, x, w⟩ := by
  induction labels generalizing pc with
  | nil => exact .refl
  | cons label rest ih =>
    rw [List.map_cons] at h
    have hrest := ih h.tail
    rw [show pc + (label :: rest).length = pc + 1 + rest.length by rw [List.length_cons]; omega]
    exact (reaches_past_label h.get).trans hrest

theorem reaches_startOf_succ (tail : List Line) (hlen : blocks.length = steps.length)
    (hs : steps[k]? = some s) (hblock : blocks[k]? = some block) (ω : Oracle) (x : Work) (w : World) :
    Reaches (stepLine? ω (layout steps blocks ++ tail)) ⟨startOf steps blocks k + block.length, x, w⟩
      ⟨startOf steps blocks (k + 1), x, w⟩ := by
  have hentry := length_take_succ hs hblock
  cases hs' : steps[k + 1]? with
  | none =>
    have hend : startOf steps blocks (k + 1) = startOf steps blocks k + block.length := by
      rw [← hentry]
      simp [startOf, hs']
    rw [hend]
  | some s' =>
    have hlt : k + 1 < blocks.length := by
      rw [hlen]
      exact (List.getElem?_eq_some_iff.mp hs').1
    have hblock' : blocks[k + 1]? = some blocks[k + 1] := List.getElem?_eq_getElem hlt
    have hlabels := (placed_step tail hs' hblock').left
    rw [startOf_eq hs', ← hentry]
    exact reaches_labels hlabels ω x w

theorem reaches_startOf_label (tail : List Line) {label : String} (hs : steps[k]? = some s)
    (hblock : blocks[k]? = some block) (hmem : label ∈ s.labels)
    (hnodup : (lineLabels (layout steps blocks ++ tail)).Nodup) (ω : Oracle) (x : Work) (w : World) :
    ∃ target, place? (layout steps blocks ++ tail) label = some target ∧
      Reaches (stepLine? ω (layout steps blocks ++ tail)) ⟨target, x, w⟩
        ⟨startOf steps blocks k, x, w⟩ := by
  obtain ⟨before, after, hsplit⟩ := List.append_of_mem hmem
  have hlabels := (placed_step tail hs hblock).left
  rw [hsplit, List.map_append] at hlabels
  have hfrom := hlabels.right
  refine ⟨_, place?_of_placed hfrom hnodup, ?_⟩
  have hreach := reaches_labels hfrom ω x w
  rw [startOf_eq hs, hsplit]
  simp only [List.length_append, List.length_map] at hreach ⊢
  rw [← Nat.add_assoc]
  exact hreach

end Blocks

/-! ### Distinct labels -/

theorem lineLabels_layout {steps : List Flat.Step} {blocks : List (List Line)}
    (hlen : blocks.length = steps.length) :
    (lineLabels (layout steps blocks)).Perm
      (steps.flatMap (·.labels) ++ blocks.flatMap lineLabels) := by
  induction steps generalizing blocks with
  | nil =>
    obtain rfl : blocks = [] := List.length_eq_zero_iff.mp hlen
    exact .refl _
  | cons s rest ih =>
    cases blocks with
    | nil => simp at hlen
    | cons block blocks =>
      have hrest := ih (by simpa using hlen)
      simp only [layout, lineLabels_append, lineLabels_map_label, List.flatMap_cons,
        List.append_assoc]
      refine .append_left s.labels ((hrest.append_left _).trans ?_)
      rw [← List.append_assoc, ← List.append_assoc]
      exact List.perm_append_comm.append_right _

/-- The labels of an emitted body are distinct if those of the steps are, and start otherwise than
invented ones. -/
theorem nodup_labels {φ : Frame} {steps : List Flat.Step} {blocks : List (List Line)}
    {σ σ' : EmitState} (m : Flat.Method) (h : EmitsAll φ steps blocks σ σ')
    (hnodup : (steps.flatMap (·.labels)).Nodup)
    (hlead : ∀ l ∈ steps.flatMap (·.labels), ¬ "cmp_".toList <+: l.toList) :
    (lineLabels (layout steps blocks ++ closing m)).Nodup := by
  have hclosing : lineLabels (closing m) = [] := by
    unfold closing
    split <;> rfl
  rw [lineLabels_append, hclosing, List.append_nil, (lineLabels_layout h.length_eq).nodup_iff,
    List.nodup_append]
  refine ⟨hnodup, h.invented.numbered.nodup, ?_⟩
  -- invented labels start with `cmp_`, which no label of a step does
  rintro a ha b hb rfl
  exact hlead a ha (h.invented.lead a hb)

end JavaMinus.Assembly
