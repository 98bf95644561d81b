import JavaMinus.Proofs.Assembly.MethodMeaning
import JavaMinus.Proofs.Assembly.StackEffect

/-!
# Charts of emitted bodies

To follow some state along the lines of a body, be it the depth of the stack or the kinds of values on
it, each line is given the state before it. Such a chart is consistent if every line turns its state
into the state of all lines that control may go to. For an emitted body it is enough to chart the block
of each step from the state that all steps have in common: the jumps between steps need no more.
-/

namespace JavaMinus.Assembly

open JavaMinus.Behaviour
open JavaMinus.Flat (Step)

/-! ### Places of steps -/

/-- Position `p` is that of a label of a step or of the first line of its block. -/
def IsEntry (steps : List Step) (blocks : List (List Line)) (p : Nat) : Prop :=
  ∃ k s, steps[k]? = some s ∧ (layout (steps.take k) (blocks.take k)).length ≤ p ∧
    p ≤ startOf steps blocks k

section Places

variable {steps : List Step} {blocks : List (List Line)}

theorem length_layout_succ (s : Step) (rest : List Step) (block : List Line)
    (blocks : List (List Line)) (k : Nat) :
    (layout ((s :: rest).take (k + 1)) ((block :: blocks).take (k + 1))).length =
      s.labels.length + block.length + (layout (rest.take k) (blocks.take k)).length := by
  simp [layout, Nat.add_assoc]

theorem layout_cases (hlen : blocks.length = steps.length) {i : Nat}
    (hi : i < (layout steps blocks).length) :
    ∃ k s block, steps[k]? = some s ∧ blocks[k]? = some block ∧
      (layout (steps.take k) (blocks.take k)).length ≤ i ∧
      i < startOf steps blocks k + block.length := by
  induction steps generalizing blocks i with
  | nil => simp [layout] at hi
  | cons s rest ih =>
    cases blocks with
    | nil => simp at hlen
    | cons block blocks =>
      by_cases hfirst : i < s.labels.length + block.length
      · exact ⟨0, s, block, rfl, rfl, Nat.zero_le i, by simpa [startOf, layout] using hfirst⟩
      · have hi' : i - (s.labels.length + block.length) < (layout rest blocks).length := by
          simp only [layout, List.length_append, List.length_map] at hi
          omega
        obtain ⟨k, s', block', hs', hblock', hge, hlt⟩ := ih (by simpa using hlen) hi'
        rw [startOf_eq hs'] at hlt
        refine ⟨k + 1, s', block', by simpa using hs', by simpa using hblock', ?_, ?_⟩
        · rw [length_layout_succ]
          omega
        · rw [startOf_eq (by simpa using hs'), length_layout_succ]
          omega

/-- The position behind a block is that of the next step, if there is one. -/
theorem entry_behind (hlen : blocks.length = steps.length) {k : Nat} {s : Step} {block : List Line}
    (hs : steps[k]? = some s) (hblock : blocks[k]? = some block) :
    IsEntry steps blocks (startOf steps blocks k + block.length) ∨
      startOf steps blocks k + block.length = (layout steps blocks).length := by
  have hbehind := length_take_succ hs hblock
  cases hs' : steps[k + 1]? with
  | some s' =>
    left
    refine ⟨k + 1, s', hs', by omega, ?_⟩
    rw [startOf_eq hs']
    omega
  | none =>
    right
    have hge := List.getElem?_eq_none_iff.mp hs'
    rw [← hbehind, List.take_of_length_le hge, List.take_of_length_le (hlen ▸ hge)]

/-- A label of a step stands before the block of the step. -/
theorem place_of_label (tail : List Line)
    (hlen : blocks.length = steps.length) {k j : Nat} {s : Step} {label : String}
    (hs : steps[k]? = some s) (hlabel : label ∈ s.labels)
    (hnodup : (lineLabels (layout steps blocks ++ tail)).Nodup)
    (hplace : place? (layout steps blocks ++ tail) label = some j) :
    (layout (steps.take k) (blocks.take k)).length ≤ j ∧ j < startOf steps blocks k := by
  have hk := (List.getElem?_eq_some_iff.mp hs).1
  have hblock : blocks[k]? = some blocks[k] := List.getElem?_eq_getElem (hlen ▸ hk)
  obtain ⟨before, after, hsplit⟩ := List.append_of_mem hlabel
  have hlabels := (placed_step tail hs hblock).left
  rw [hsplit, List.map_append] at hlabels
  rw [place?_of_placed hlabels.right hnodup, Option.some.injEq, List.length_map] at hplace
  rw [startOf_eq hs, hsplit, List.length_append, List.length_cons]
  omega

theorem entry_of_label (tail : List Line) (hlen : blocks.length = steps.length) {s : Step}
    {label : String} {j : Nat} (hs : s ∈ steps) (hlabel : label ∈ s.labels)
    (hnodup : (lineLabels (layout steps blocks ++ tail)).Nodup)
    (hplace : place? (layout steps blocks ++ tail) label = some j) : IsEntry steps blocks j := by
  obtain ⟨k, hk⟩ := List.mem_iff_getElem?.mp hs
  obtain ⟨hge, hlt⟩ := place_of_label tail hlen hk hlabel hnodup hplace
  exact ⟨k, s, hk, hge, Nat.le_of_lt hlt⟩

theorem closing_line {m : Flat.Method} {i : Nat} (hge : (layout m.steps blocks).length ≤ i)
    (hi : i < (bodyOf m blocks).length) :
    i = (layout m.steps blocks).length ∧ closing m = [.op .ret] ∧
      (bodyOf m blocks)[i]? = some (.op .ret) := by
  have hclosing : closing m = [] ∨ closing m = [.op .ret] := by
    unfold closing
    split
    · exact .inr rfl
    · exact .inl rfl
  unfold bodyOf at hi ⊢
  rcases hclosing with hclosing | hclosing
  · rw [hclosing, List.append_nil] at hi
    omega
  · rw [hclosing, List.length_append, List.length_singleton] at hi
    obtain rfl : i = (layout m.steps blocks).length := by omega
    refine ⟨rfl, hclosing, ?_⟩
    rw [hclosing]
    simp

end Places

/-! ### Consistent lines -/

section Lines

variable {τ : Type}

/-- What a line makes of the state before it, where `R` tells it of opcodes. Labels change nothing. -/
def Line.Turns (R : Op → τ → τ → Prop) : Line → τ → τ → Prop
  | .label _ => fun x y => y = x
  | .op o => R o

/-- Line `i` turns its state into that of each line which control may go to from it. -/
def Consistent (R : Op → τ → τ → Prop) (body : List Line) (xs : List τ) (i : Nat) : Prop :=
  ∃ line x y, body[i]? = some line ∧ xs[i]? = some x ∧ line.Turns R x y ∧
    ∀ j z, Leads body i j → xs[j]? = some z → z = y

/-- Started in state `x` the lines end in state `y`, and `xs` has the state before each of them. -/
inductive Threads (R : Op → τ → τ → Prop) : List Line → τ → List τ → τ → Prop
  | nil (x : τ) : Threads R [] x [] x
  | op {o : Op} {rest : List Line} {x y z : τ} {xs : List τ} (hpasses : o.Passes) (h : R o x y)
      (hrest : Threads R rest y xs z) : Threads R (.op o :: rest) x (x :: xs) z
  | compare {rest : List Line} {x y v z : τ} {xs : List τ} (cmp : Comparison) (n : Nat)
      (hcompare : ∀ label, R (.ifCompare cmp label) x y) (hconst : ∀ b, R (.const b) y v)
      (hgoto : ∀ label, R (.goto label) v v) (hrest : Threads R rest v xs z) :
      Threads R (compareLines cmp n ++ rest) x ([x, y, v, y, y, v] ++ xs) z

variable {R : Op → τ → τ → Prop} {body lines more : List Line} {xs ys : List τ} {x y z : τ}
  {i : Nat}

theorem Threads.append (h : Threads R lines x xs y) (h' : Threads R more y ys z) :
    Threads R (lines ++ more) x (xs ++ ys) z := by
  induction h with
  | nil => exact h'
  | op hpasses h _ ih => exact .op hpasses h (ih h')
  | compare cmp n hcompare hconst hgoto _ ih =>
    rw [List.append_assoc, List.append_assoc]
    exact .compare cmp n hcompare hconst hgoto (ih h')

theorem Threads.length_eq (h : Threads R lines x xs y) : xs.length = lines.length := by
  induction h with
  | nil => rfl
  | op _ _ _ ih => rw [List.length_cons, List.length_cons, ih]
  | compare cmp n _ _ _ _ ih => simp [compareLines, ih]

theorem Threads.first (h : Threads R lines x xs y) : ∃ rest, xs ++ [y] = x :: rest := by
  cases h with
  | nil => exact ⟨[], rfl⟩
  | op => exact ⟨_, rfl⟩
  | compare => exact ⟨_, rfl⟩

theorem consistent_of_next {line : Line} (hline : body[i]? = some line) (hx : xs[i]? = some x)
    (hturns : line.Turns R x y) (hnext : line.falls = true → ∀ z, xs[i + 1]? = some z → z = y)
    (hjump : ∀ name j z, line.target? = some name → place? body name = some j →
      xs[j]? = some z → z = y) : Consistent R body xs i := by
  refine ⟨line, x, y, hline, hx, hturns, ?_⟩
  rintro j z ⟨line', hline', hleads⟩ hz
  obtain rfl : line = line' := Option.some.inj (hline.symm.trans hline')
  rcases hleads with ⟨hfalls, rfl⟩ | ⟨name, htarget, hplace⟩
  · exact hnext hfalls z hz
  · exact hjump name j z htarget hplace hz

theorem consistent_inside {line : Line} (hline : body[i]? = some line) (hx : xs[i]? = some x)
    (hturns : line.Turns R x y) (hnext : line.falls = true → xs[i + 1]? = some y)
    (hjump : ∀ name, line.target? = some name →
      ∃ j, place? body name = some j ∧ xs[j]? = some y) : Consistent R body xs i := by
  refine consistent_of_next hline hx hturns ?_ ?_
  · intro hfalls z hz
    exact (Option.some.inj ((hnext hfalls).symm.trans hz)).symm
  · intro name j z htarget hplace hz
    obtain ⟨j', hplace', hy⟩ := hjump name htarget
    obtain rfl : j' = j := Option.some.inj (hplace'.symm.trans hplace)
    exact (Option.some.inj (hy.symm.trans hz)).symm

theorem consistent_compare {pc n : Nat} {cmp : Comparison} {rest : List Line} {v : τ} {tail : List τ}
    (hbody : Placed body pc (compareLines cmp n ++ rest))
    (hxs : Placed xs pc ([x, y, v, y, y, v] ++ v :: tail)) (hnodup : (lineLabels body).Nodup)
    (hcompare : ∀ label, R (.ifCompare cmp label) x y) (hconst : ∀ b, R (.const b) y v)
    (hgoto : ∀ label, R (.goto label) v v) (hi : pc ≤ i ∧ i < pc + 6) : Consistent R body xs i := by
  simp only [compareLines, List.cons_append, List.nil_append] at hbody hxs
  have hyes := place?_of_placed hbody.tail.tail.tail hnodup
  have hdone := place?_of_placed hbody.tail.tail.tail.tail.tail hnodup
  have d₁ := hxs.tail
  have d₂ := d₁.tail
  have d₃ := d₂.tail
  have d₄ := d₃.tail
  have d₅ := d₄.tail
  have hcases : i = pc ∨ i = pc + 1 ∨ i = pc + 1 + 1 ∨ i = pc + 1 + 1 + 1 ∨
      i = pc + 1 + 1 + 1 + 1 ∨ i = pc + 1 + 1 + 1 + 1 + 1 := by omega
  rcases hcases with rfl | rfl | rfl | rfl | rfl | rfl
  · refine consistent_inside hbody.get hxs.get (hcompare _) (fun _ => d₁.get) ?_
    rintro _ ⟨⟩
    exact ⟨_, hyes, d₃.get⟩
  · refine consistent_inside hbody.tail.get d₁.get (hconst _) (fun _ => d₂.get) ?_
    rintro _ ⟨⟩
  · refine consistent_inside hbody.tail.tail.get d₂.get (hgoto _) ?_ ?_
    · rintro ⟨⟩
    · rintro _ ⟨⟩
      exact ⟨_, hdone, d₅.get⟩
  · refine consistent_inside hbody.tail.tail.tail.get d₃.get rfl (fun _ => d₄.get) ?_
    rintro _ ⟨⟩
  · refine consistent_inside hbody.tail.tail.tail.tail.get d₄.get (hconst _) (fun _ => d₅.get) ?_
    rintro _ ⟨⟩
  · refine consistent_inside hbody.tail.tail.tail.tail.tail.get d₅.get rfl
      (fun _ => d₅.tail.get) ?_
    rintro _ ⟨⟩

/-- What is threaded line by line is consistent with control flow. -/
theorem Threads.consistent (h : Threads R lines x ys y) {pc : Nat} (hbody : Placed body pc lines)
    (hxs : Placed xs pc (ys ++ [y])) (hnodup : (lineLabels body).Nodup)
    (hi : pc ≤ i ∧ i < pc + lines.length) : Consistent R body xs i := by
  induction h generalizing pc with
  | nil x =>
    rw [List.length_nil] at hi
    omega
  | @op o rest x y z ys hpasses h hrest ih =>
    obtain ⟨tail, htail⟩ := hrest.first
    rw [List.cons_append] at hxs
    by_cases hpc : i = pc
    · subst hpc
      have hnext := hxs.tail
      rw [htail] at hnext
      refine consistent_inside hbody.get hxs.get h (fun _ => hnext.get) ?_
      intro name htarget
      rw [hpasses.2] at htarget
      cases htarget
    · rw [List.length_cons] at hi
      exact ih hbody.tail hxs.tail (by omega)
  | @compare rest x y v z ys cmp n hcompare hconst hgoto hrest ih =>
    obtain ⟨tail, htail⟩ := hrest.first
    rw [List.append_assoc] at hxs
    by_cases hpc : i < pc + 6
    · rw [htail] at hxs
      exact consistent_compare hbody hxs hnodup hcompare hconst hgoto ⟨hi.1, hpc⟩
    · rw [List.length_append] at hi
      have hlen : (compareLines cmp n).length = 6 := rfl
      refine ih hbody.right hxs.right ?_
      omega

end Lines

/-! ### Steps -/

section Steps

variable {τ : Type}

/-- The lines of an instruction start and end in the state `base`, and `xs` has the state before each
of them. The last line may jump to `target`. -/
def Closes (R : Op → τ → τ → Prop) (base : τ) (block : List Line) (xs : List τ)
    (target : Option String) : Prop :=
  ∃ front o vs x, block = front ++ [.op o] ∧ xs = vs ++ [x] ∧ Threads R front base vs x ∧
    R o x base ∧ (Line.op o).target? = target

/-- The states of all lines of the steps: `base` at labels, and as charted in the blocks. -/
structure Arranged (R : Op → τ → τ → Prop) (base : τ) (steps : List Step) (blocks : List (List Line))
    (xs : List τ) : Prop where
  length_eq : xs.length = (layout steps blocks).length
  step : ∀ k s block, steps[k]? = some s → blocks[k]? = some block → ∃ vs,
    Placed xs (layout (steps.take k) (blocks.take k)).length
      (List.replicate s.labels.length base ++ vs) ∧ Closes R base block vs (Lowering.target? s.instr)

variable {R : Op → τ → τ → Prop} {base : τ} {steps : List Step} {blocks : List (List Line)}
  {xs : List τ}

theorem Closes.length_eq {block : List Line} {target : Option String}
    (h : Closes R base block xs target) : xs.length = block.length := by
  obtain ⟨front, o, vs, x, rfl, rfl, hfront, _, _⟩ := h
  rw [List.length_append, List.length_append, hfront.length_eq]
  rfl

theorem exists_arranged (hlen : blocks.length = steps.length)
    (h : ∀ (k : Nat) (s : Step) (block : List Line), steps[k]? = some s → blocks[k]? = some block →
      ∃ vs, Closes R base block vs (Lowering.target? s.instr)) :
    ∃ xs, Arranged R base steps blocks xs := by
  induction steps generalizing blocks with
  | nil => exact ⟨[], rfl, by simp⟩
  | cons s rest ih =>
    cases blocks with
    | nil => simp at hlen
    | cons block blocks =>
      obtain ⟨xs, harranged⟩ := ih (by simpa using hlen) fun k s' block' hs' hblock' =>
        h (k + 1) s' block' (by simpa using hs') (by simpa using hblock')
      obtain ⟨vs, hcloses⟩ := h 0 s block rfl rfl
      have hlength : (List.replicate s.labels.length base ++ vs).length =
          s.labels.length + block.length := by
        rw [List.length_append, List.length_replicate, hcloses.length_eq]
      refine ⟨List.replicate s.labels.length base ++ vs ++ xs, ?_, ?_⟩
      · rw [List.length_append, hlength, harranged.length_eq]
        simp [layout, Nat.add_assoc]
      · intro k s' block' hs' hblock'
        cases k with
        | zero =>
          obtain rfl : s = s' := by simpa using hs'
          obtain rfl : block = block' := by simpa using hblock'
          exact ⟨vs, ⟨[], xs, rfl, rfl⟩, hcloses⟩
        | succ k =>
          obtain ⟨vs', hplaced, hcloses'⟩ := harranged.step k s' block' (by simpa using hs')
            (by simpa using hblock')
          refine ⟨vs', ?_, hcloses'⟩
          rw [length_layout_succ, ← hlength]
          exact hplaced.behind _

theorem Arranged.base_entry (h : Arranged R base steps blocks xs)
    (hlen : blocks.length = steps.length) {p : Nat} (hp : IsEntry steps blocks p) :
    xs[p]? = some base := by
  obtain ⟨k, s, hs, hge, hle⟩ := hp
  have hlt : k < blocks.length := by
    rw [hlen]
    exact (List.getElem?_eq_some_iff.mp hs).1
  obtain ⟨vs, hplaced, front, o, vs', x, _, rfl, hthreads, _, _⟩ :=
    h.step k s _ hs (List.getElem?_eq_getElem hlt)
  obtain ⟨tail, htail⟩ := hthreads.first
  rw [htail] at hplaced
  rw [startOf_eq hs] at hle
  have hbase : (List.replicate s.labels.length base ++ base :: tail)[p -
      (layout (steps.take k) (blocks.take k)).length]? = some base := by
    by_cases hlabel : p - (layout (steps.take k) (blocks.take k)).length < s.labels.length
    · rw [List.getElem?_append_left (by simpa using hlabel), List.getElem?_replicate,
        if_pos hlabel]
    · rw [List.getElem?_append_right (by simpa using hlabel), List.length_replicate,
        show p - (layout (steps.take k) (blocks.take k)).length - s.labels.length = 0 by omega]
      rfl
  have hget := hplaced.get_add hbase
  rwa [Nat.add_sub_cancel' hge] at hget

end Steps

/-! ### Methods -/

section Methods

variable {τ : Type}

/-- A method, the blocks that its steps became and the states of their lines. Jumps of the method go to
labels of its steps, and a closing return changes nothing. -/
structure Charted (R : Op → τ → τ → Prop) (base : τ) (m : Flat.Method) (blocks : List (List Line))
    (xs : List τ) : Prop where
  arranged : Arranged R base m.steps blocks xs
  lengths : blocks.length = m.steps.length
  nodup : (lineLabels (bodyOf m blocks)).Nodup
  targets : ∀ s ∈ m.steps, ∀ label, Lowering.target? s.instr = some label →
    ∃ s' ∈ m.steps, label ∈ s'.labels
  ret : R .ret base base

/-- The states of all lines of a method. -/
def chartOf (m : Flat.Method) (base : τ) (xs : List τ) : List τ :=
  xs ++ (closing m).map fun _ => base

namespace Charted

variable {R : Op → τ → τ → Prop} {base : τ} {m : Flat.Method} {blocks : List (List Line)}
  {xs : List τ}

theorem length_chartOf (h : Charted R base m blocks xs) :
    (chartOf m base xs).length = (bodyOf m blocks).length := by
  rw [chartOf, bodyOf, List.length_append, List.length_append, List.length_map, h.arranged.length_eq]

theorem get_entry (h : Charted R base m blocks xs) {p : Nat} (hp : IsEntry m.steps blocks p) :
    (chartOf m base xs)[p]? = some base := by
  have hbase := h.arranged.base_entry h.lengths hp
  obtain ⟨hlt, _⟩ := List.getElem?_eq_some_iff.mp hbase
  rw [chartOf, List.getElem?_append_left hlt, hbase]

theorem base_next (h : Charted R base m blocks xs) {p : Nat} {z : τ}
    (hp : IsEntry m.steps blocks p ∨ p = (layout m.steps blocks).length)
    (hz : (chartOf m base xs)[p]? = some z) : z = base := by
  rcases hp with hp | rfl
  · exact Option.some.inj (hz.symm.trans (h.get_entry hp))
  · rw [chartOf, ← h.arranged.length_eq, List.getElem?_append_right (Nat.le_refl _), Nat.sub_self,
      List.getElem?_map] at hz
    obtain ⟨_, _, rfl⟩ := Option.map_eq_some_iff.mp hz
    rfl

theorem base_first (h : Charted R base m blocks xs) {z : τ}
    (hz : (chartOf m base xs)[0]? = some z) : z = base := by
  refine h.base_next ?_ hz
  cases hs : m.steps[0]? with
  | some s => exact .inl ⟨0, s, hs, by simp [layout], Nat.zero_le _⟩
  | none =>
    have hsteps : m.steps = [] := by simpa using hs
    exact .inr (by simp [hsteps, layout])

theorem consistent_label (h : Charted R base m blocks xs) {k i : Nat} {s : Step} {block : List Line}
    (hs : m.steps[k]? = some s) (hblock : blocks[k]? = some block)
    (hi : (layout (m.steps.take k) (blocks.take k)).length ≤ i ∧ i < startOf m.steps blocks k) :
    Consistent R (bodyOf m blocks) (chartOf m base xs) i := by
  have hlt := hi.2
  rw [startOf_eq hs] at hlt
  have hlabels := (placed_step (closing m) hs hblock).left
  have hindex : i - (layout (m.steps.take k) (blocks.take k)).length < s.labels.length := by omega
  have hget := hlabels.get_add (k := i - (layout (m.steps.take k) (blocks.take k)).length)
    (by rw [List.getElem?_map, List.getElem?_eq_getElem hindex]; rfl)
  rw [Nat.add_sub_cancel' hi.1] at hget
  have hhere : IsEntry m.steps blocks i := ⟨k, s, hs, hi.1, Nat.le_of_lt hi.2⟩
  have hnext : IsEntry m.steps blocks (i + 1) := ⟨k, s, hs, by omega, hi.2⟩
  refine consistent_inside hget (h.get_entry hhere) rfl (fun _ => h.get_entry hnext) ?_
  rintro _ ⟨⟩

theorem consistent_block (h : Charted R base m blocks xs) {k i : Nat} {s : Step} {block : List Line}
    (hs : m.steps[k]? = some s) (hblock : blocks[k]? = some block)
    (hi : startOf m.steps blocks k ≤ i ∧ i < startOf m.steps blocks k + block.length) :
    Consistent R (bodyOf m blocks) (chartOf m base xs) i := by
  have hbody := placed_block (closing m) hs hblock
  have hbehind := entry_behind h.lengths hs hblock
  obtain ⟨vs, hplaced, front, o, vs', x, rfl, rfl, hthreads, hlast, htarget⟩ :=
    h.arranged.step k s block hs hblock
  have hxs := (hplaced.before ((closing m).map fun _ => base)).right
  rw [List.length_replicate, ← startOf_eq hs] at hxs
  rw [List.length_append, List.length_singleton] at hi hbehind
  by_cases hfront : i < startOf m.steps blocks k + front.length
  · exact hthreads.consistent hbody.left hxs h.nodup ⟨hi.1, hfront⟩
  · -- the last line of the block leads to the entries of steps
    obtain rfl : i = startOf m.steps blocks k + front.length := by omega
    have hget := hxs.right.get
    rw [hthreads.length_eq] at hget
    refine consistent_of_next hbody.right.get hget hlast ?_ ?_
    · intro _ z hz
      exact h.base_next hbehind hz
    · intro name j z hname hplace hz
      rw [htarget] at hname
      obtain ⟨s', hs', hmem⟩ := h.targets s (List.mem_of_getElem? hs) name hname
      have hentry := entry_of_label (closing m) h.lengths hs' hmem h.nodup hplace
      exact h.base_next (.inl hentry) hz

theorem consistent (h : Charted R base m blocks xs) {i : Nat} (hi : i < (bodyOf m blocks).length) :
    Consistent R (bodyOf m blocks) (chartOf m base xs) i := by
  by_cases hlayout : i < (layout m.steps blocks).length
  · obtain ⟨k, s, block, hs, hblock, hge, hlt⟩ := layout_cases h.lengths hlayout
    by_cases hstart : i < startOf m.steps blocks k
    · exact h.consistent_label hs hblock ⟨hge, hstart⟩
    · exact h.consistent_block hs hblock ⟨by omega, hlt⟩
  · obtain ⟨rfl, hclosing, hline⟩ := closing_line (by omega) hi
    have hget : (chartOf m base xs)[(layout m.steps blocks).length]? = some base := by
      rw [chartOf, hclosing, ← h.arranged.length_eq]
      simp
    refine consistent_inside hline hget h.ret ?_ ?_
    · rintro ⟨⟩
    · rintro _ ⟨⟩

end Charted

end Methods

end JavaMinus.Assembly
