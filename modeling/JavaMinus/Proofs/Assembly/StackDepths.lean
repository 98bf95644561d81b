import JavaMinus.Proofs.Assembly.Charts

/-!
# Stack depths of emitted bodies

Giving each line of a body the number of values that it finds on the stack is a matter of following
the lines: where control goes from one line to another, the effect of the first fixes the depth at
the second. In an emitted body there is one way to do it that starts each step on the empty stack.
It never asks for values that are not there, and the greatest depth is the stack limit of the method.
-/

namespace JavaMinus.Assembly

open JavaMinus.Behaviour
open JavaMinus.Flat (Header Code Step Point labelsOf)

/-- A depth for each line of the body. It is zero at the `fixed` lines, and wherever control may go
from one line to another it changes by the effect of the first. Nothing here keeps a depth from
being negative. -/
structure Depths (body : List Line) (fixed : Nat → Prop) (ds : List Int) : Prop where
  length_eq : ds.length = body.length
  zero : ∀ i x, fixed i → ds[i]? = some x → x = 0
  edge : ∀ i j x y, Leads body i j → ds[i]? = some x → ds[j]? = some y →
    ∃ line e, body[i]? = some line ∧ line.effect? = some e ∧ y = x - e.takes + e.puts

/-! ### Single lines -/

/-- Line `i` finds on the stack what it takes, leaves at most `limit` values there, and the depths
agree with its effect wherever control goes from it. -/
def Accounts (body : List Line) (ds : List Nat) (limit i : Nat) : Prop :=
  ∃ line x e, body[i]? = some line ∧ ds[i]? = some x ∧ line.effect? = some e ∧ e.takes ≤ x ∧
    x - e.takes + e.puts ≤ limit ∧
    ∀ j y, Leads body i j → ds[j]? = some y → y = x - e.takes + e.puts

/-- The opcode finds on the stack what it takes, and leaves at most `limit` values there. -/
def Counts (limit : Nat) (o : Op) (x y : Nat) : Prop :=
  ∃ e, o.effect? = some e ∧ e.takes ≤ x ∧ y = x - e.takes + e.puts ∧ y ≤ limit

theorem Counted.threads {front : List Line} {b b' limit : Nat} {vs : List Nat}
    (h : Counted front b vs b') (hlimit : highest (vs ++ [b']) ≤ limit) :
    Threads (Counts limit) front b vs b' := by
  induction h with
  | nil b => exact .nil b
  | @op o e rest b b' vs hpasses heffect htakes hrest ih =>
    obtain ⟨tail, htail⟩ := hrest.first
    rw [List.cons_append, highest_cons] at hlimit
    have hnext := hlimit
    rw [htail, highest_cons] at hnext
    exact .op hpasses ⟨e, heffect, htakes, rfl, by omega⟩ (ih (by omega))
  | @compare rest b b' vs cmp n hrest ih =>
    rw [List.append_assoc, highest_append] at hlimit
    simp only [highest_cons, highest_nil] at hlimit
    refine .compare cmp n (fun _ => ?_) (fun _ => ?_) (fun _ => ?_) (ih (by omega))
    · exact ⟨_, rfl, Nat.le_add_left 2 b, rfl, by omega⟩
    · exact ⟨_, rfl, Nat.zero_le b, rfl, by omega⟩
    · exact ⟨_, rfl, Nat.zero_le _, rfl, by omega⟩

/-! ### No other way -/

section Forced

variable {body : List Line} {fixed : Nat → Prop} {ds : List Int} {i j : Nat}

theorem leads_next {line : Line} (hline : body[i]? = some line) (hfalls : line.falls = true) :
    Leads body i (i + 1) :=
  ⟨line, hline, .inl ⟨hfalls, rfl⟩⟩

theorem leads_jump {line : Line} {name : String} (hline : body[i]? = some line)
    (htarget : line.target? = some name) (hplace : place? body name = some j) : Leads body i j :=
  ⟨line, hline, .inr ⟨name, htarget, hplace⟩⟩

theorem Depths.follow (h : Depths body fixed ds) {line : Line} {e : Effect} {x : Nat}
    (hline : body[i]? = some line) (he : line.effect? = some e) (htakes : e.takes ≤ x)
    (hx : ds[i]? = some (x : Int)) (hleads : Leads body i j) (hj : j < body.length) :
    ds[j]? = some ((x - e.takes + e.puts : Nat) : Int) := by
  rw [← h.length_eq] at hj
  have hy : ds[j]? = some ds[j] := List.getElem?_eq_getElem hj
  obtain ⟨line', e', hline', he', hedge⟩ := h.edge i j x _ hleads hx hy
  obtain rfl : line = line' := Option.some.inj (hline.symm.trans hline')
  obtain rfl : e = e' := Option.some.inj (he.symm.trans he')
  rw [hy, hedge]
  congr 1
  omega

/-- The depth before the first line fixes all depths up to the line behind the last one. -/
theorem Counted.forced {front : List Line} {b b' : Nat} {vs : List Nat}
    (h : Counted front b vs b') (hd : Depths body fixed ds) {pc : Nat}
    (hbody : Placed body pc front) (hnodup : (lineLabels body).Nodup)
    (hstart : ds[pc]? = some (b : Int)) (hend : pc + front.length < body.length) {k v : Nat}
    (hv : (vs ++ [b'])[k]? = some v) : ds[pc + k]? = some (v : Int) := by
  induction h generalizing pc k with
  | nil b =>
    obtain ⟨rfl, rfl⟩ : k = 0 ∧ b = v := by simpa [List.getElem?_singleton] using hv
    exact hstart
  | @op o e rest b b' vs hpasses heffect htakes hrest ih =>
    rw [List.length_cons] at hend
    cases k with
    | zero =>
      obtain rfl : b = v := by simpa using hv
      exact hstart
    | succ k =>
      have hline := hbody.get
      have hnext := hd.follow hline heffect htakes hstart (leads_next hline hpasses.1) (by omega)
      rw [show pc + (k + 1) = pc + 1 + k by omega]
      exact ih hbody.tail hnext (by omega) (by simpa using hv)
  | @compare rest b b' vs cmp n hrest ih =>
    have hlen : (compareLines cmp n).length = 6 := rfl
    rw [List.length_append, hlen] at hend
    have hrest' := hbody.right
    simp only [compareLines, List.cons_append, List.nil_append] at hbody
    have hyes := place?_of_placed hbody.tail.tail.tail hnodup
    have hdone := place?_of_placed hbody.tail.tail.tail.tail.tail hnodup
    have h₁ := hbody.tail
    have h₂ := h₁.tail
    have h₃ := h₂.tail
    have h₄ := h₃.tail
    have h₅ := h₄.tail
    have htwo : 2 ≤ b + 2 := Nat.le_add_left 2 b
    have hzero (x : Nat) : 0 ≤ x := Nat.zero_le x
    -- the two ways through the comparison meet at its last label
    have d₁ := hd.follow hbody.get rfl htwo hstart (leads_next hbody.get rfl) (by omega)
    have d₂ := hd.follow h₁.get rfl (hzero _) d₁ (leads_next h₁.get rfl) (by omega)
    have d₃ := hd.follow hbody.get rfl htwo hstart (leads_jump hbody.get rfl hyes) (by omega)
    have d₄ := hd.follow h₃.get rfl (hzero _) d₃ (leads_next h₃.get rfl) (by omega)
    have d₅ := hd.follow h₂.get rfl (hzero _) d₂ (leads_jump h₂.get rfl hdone) (by omega)
    have d₆ := hd.follow h₅.get rfl (hzero _) d₅ (leads_next h₅.get rfl) (by omega)
    rcases k with _ | _ | _ | _ | _ | _ | k
    · obtain rfl := Option.some.inj hv
      exact hstart
    · obtain rfl := Option.some.inj hv
      exact d₁
    · obtain rfl := Option.some.inj hv
      exact d₂
    · obtain rfl := Option.some.inj hv
      exact d₃
    · obtain rfl := Option.some.inj hv
      exact d₄
    · obtain rfl := Option.some.inj hv
      exact d₅
    · rw [show pc + (k + 6) = pc + (compareLines cmp n).length + k by omega]
      exact ih hrest' d₆ (by omega) hv

end Forced

/-! ### Steps -/

/-- The depths of all lines of the steps: zero at labels, and as counted in the blocks. -/
structure Laid (steps : List Step) (blocks : List (List Line)) (ds : List Nat) : Prop where
  length_eq : ds.length = (layout steps blocks).length
  step : ∀ k s block, steps[k]? = some s → blocks[k]? = some block → ∃ vs,
    Placed ds (layout (steps.take k) (blocks.take k)).length
      (List.replicate s.labels.length 0 ++ vs) ∧ Spans block vs (Lowering.target? s.instr)
  highest_eq : highest ds = stackUseOf steps

section Steps

variable {φ : Frame} {steps : List Step} {blocks : List (List Line)} {σ σ' : EmitState}

theorem highest_replicate (n : Nat) : highest (List.replicate n 0) = 0 := by
  induction n with
  | zero => rfl
  | succ n ih => rw [List.replicate_succ, highest_cons, ih, Nat.max_self]

theorem exists_laid (h : EmitsAll φ steps blocks σ σ')
    (himports : ∀ path ∈ φ.cls.imports, IsName path)
    (hnames : ∀ s ∈ steps, ∀ x ∈ instrNames s.instr, IsName x) : ∃ ds, Laid steps blocks ds := by
  induction h with
  | nil => exact ⟨[], rfl, by simp, rfl⟩
  | @cons s rest block blocks σ σ₁ σ₂ hs hrest ih =>
    rw [List.forall_mem_cons] at hnames
    obtain ⟨ds, hlaid⟩ := ih hnames.2
    obtain ⟨vs, hspans, hhigh⟩ := instruction_spans hs himports hnames.1
    have hlength : (List.replicate s.labels.length 0 ++ vs).length =
        s.labels.length + block.length := by
      rw [List.length_append, List.length_replicate, hspans.length_eq]
    refine ⟨List.replicate s.labels.length 0 ++ vs ++ ds, ?_, ?_, ?_⟩
    · rw [List.length_append, hlength, hlaid.length_eq]
      simp [layout, Nat.add_assoc]
    · intro k s' block' hs' hblock'
      cases k with
      | zero =>
        obtain rfl : s = s' := by simpa using hs'
        obtain rfl : block = block' := by simpa using hblock'
        exact ⟨vs, ⟨[], ds, rfl, rfl⟩, hspans⟩
      | succ k =>
        obtain ⟨vs', hplaced, hspans'⟩ := hlaid.step k s' block' (by simpa using hs')
          (by simpa using hblock')
        refine ⟨vs', ?_, hspans'⟩
        rw [length_layout_succ, ← hlength]
        exact hplaced.behind _
    · rw [highest_append, highest_append, highest_replicate, hhigh, hlaid.highest_eq]
      simp [stackUseOf]

theorem highest_placed {ds vs : List Nat} {pc : Nat} (h : Placed ds pc vs) :
    highest vs ≤ highest ds := by
  obtain ⟨before, after, rfl, _⟩ := h
  rw [highest_append, highest_append]
  omega

theorem Laid.arranged {ds : List Nat} (h : Laid steps blocks ds) :
    Arranged (Counts (stackUseOf steps)) 0 steps blocks ds := by
  refine ⟨h.length_eq, ?_⟩
  intro k s block hs hblock
  obtain ⟨vs, hplaced, front, o, vs', n, rfl, rfl, hcounted, heffect, htarget⟩ :=
    h.step k s block hs hblock
  have hlimit : highest (vs' ++ [n]) ≤ stackUseOf steps := by
    rw [← h.highest_eq]
    exact highest_placed hplaced.right
  have hlast : Counts (stackUseOf steps) o n 0 :=
    ⟨_, heffect, Nat.le_refl n, (Nat.sub_self n).symm, Nat.zero_le _⟩
  exact ⟨_, hplaced, front, o, vs', n, rfl, rfl, hcounted.threads hlimit, hlast, htarget⟩

end Steps

/-! ### Methods -/

/-- A method, the blocks that its steps became and the depths of their lines. Jumps of the method go
to labels of its steps. -/
structure Traced (m : Flat.Method) (blocks : List (List Line)) (ds : List Nat) : Prop where
  laid : Laid m.steps blocks ds
  lengths : blocks.length = m.steps.length
  nodup : (lineLabels (bodyOf m blocks)).Nodup
  targets : ∀ s ∈ m.steps, ∀ label, Lowering.target? s.instr = some label →
    ∃ s' ∈ m.steps, label ∈ s'.labels

/-- The depths of all lines of a method; the return that closes it finds the stack empty. -/
def allDepths (m : Flat.Method) (ds : List Nat) : List Nat :=
  ds ++ (closing m).map fun _ => 0

namespace Traced

variable {m : Flat.Method} {blocks : List (List Line)} {ds : List Nat}

theorem charted (h : Traced m blocks ds) :
    Charted (Counts (stackUseOf m.steps)) 0 m blocks ds :=
  ⟨h.laid.arranged, h.lengths, h.nodup, h.targets, _, rfl, Nat.le_refl 0, rfl, Nat.zero_le _⟩

theorem length_allDepths (h : Traced m blocks ds) :
    (allDepths m ds).length = (bodyOf m blocks).length :=
  h.charted.length_chartOf

theorem highest_allDepths (h : Traced m blocks ds) :
    highest (allDepths m ds) = stackUseOf m.steps := by
  rw [allDepths, highest_append, h.laid.highest_eq, List.map_const', highest_replicate]
  exact Nat.max_zero _

theorem zero_next (h : Traced m blocks ds) {p y : Nat}
    (hp : IsEntry m.steps blocks p ∨ p = (layout m.steps blocks).length)
    (hy : (allDepths m ds)[p]? = some y) : y = 0 :=
  h.charted.base_next hp hy

theorem accounts (h : Traced m blocks ds) {i : Nat} (hi : i < (bodyOf m blocks).length) :
    Accounts (bodyOf m blocks) (allDepths m ds) (stackUseOf m.steps) i := by
  obtain ⟨line, x, y, hline, hx, hturns, hleads⟩ := h.charted.consistent hi
  cases line with
  | label name =>
    obtain rfl : y = x := hturns
    have hbound := le_highest (List.mem_of_getElem? hx)
    rw [show chartOf m 0 ds = allDepths m ds from rfl, h.highest_allDepths] at hbound
    exact ⟨_, y, _, hline, hx, rfl, Nat.zero_le y, hbound, hleads⟩
  | op o =>
    obtain ⟨e, he, htakes, rfl, hlimit⟩ := hturns
    exact ⟨_, x, e, hline, hx, he, htakes, hlimit, hleads⟩

end Traced

/-- Where the stack of a method is known to be empty: at each step, and at a closing return that no
line leads to. -/
def Settled (m : Flat.Method) (blocks : List (List Line)) (p : Nat) : Prop :=
  IsEntry m.steps blocks p ∨
    (p = (layout m.steps blocks).length ∧ ∀ i, ¬ Leads (bodyOf m blocks) i p)

namespace Traced

variable {m : Flat.Method} {blocks : List (List Line)} {ds : List Nat}

theorem depths (h : Traced m blocks ds) :
    Depths (bodyOf m blocks) (Settled m blocks) ((allDepths m ds).map Int.ofNat) := by
  have hget {i : Nat} {x : Int} (hx : ((allDepths m ds).map Int.ofNat)[i]? = some x) :
      ∃ n, (allDepths m ds)[i]? = some n ∧ Int.ofNat n = x := by
    rw [List.getElem?_map] at hx
    exact Option.map_eq_some_iff.mp hx
  refine ⟨by rw [List.length_map, h.length_allDepths], ?_, ?_⟩
  · intro i x hi hx
    obtain ⟨n, hn, rfl⟩ := hget hx
    have hzero : n = 0 := h.zero_next (hi.imp id And.left) hn
    rw [hzero]
    rfl
  · intro i j x y hleads hx hy
    obtain ⟨n, hn, rfl⟩ := hget hx
    obtain ⟨n', hn', rfl⟩ := hget hy
    have hi : i < (bodyOf m blocks).length := by
      rw [← h.length_allDepths]
      exact (List.getElem?_eq_some_iff.mp hn).1
    obtain ⟨line, x, e, hline, hx, he, htakes, _, hedge⟩ := h.accounts hi
    obtain rfl : x = n := Option.some.inj (hx.symm.trans hn)
    have hafter := hedge j n' hleads hn'
    refine ⟨line, e, hline, he, ?_⟩
    simp only [Int.ofNat_eq_natCast]
    omega

/-- In the lines of the steps every way to give depths is this one. -/
theorem forced (h : Traced m blocks ds) {ds' : List Int}
    (hd : Depths (bodyOf m blocks) (Settled m blocks) ds') {i x : Nat}
    (hi : i < (layout m.steps blocks).length) (hx : (allDepths m ds)[i]? = some x) :
    ds'[i]? = some (x : Int) := by
  have hbound : (layout m.steps blocks).length ≤ (bodyOf m blocks).length := by
    rw [bodyOf, List.length_append]
    omega
  have hentry {p : Nat} (hp : IsEntry m.steps blocks p) (hlt : p < (layout m.steps blocks).length) :
      ds'[p]? = some ((0 : Nat) : Int) := by
    have hlt' : p < ds'.length := by
      rw [hd.length_eq]
      omega
    have hget : ds'[p]? = some ds'[p] := List.getElem?_eq_getElem hlt'
    rw [hget, hd.zero p _ (.inl hp) hget]
    rfl
  obtain ⟨k, s, block, hs, hblock, hge, hlt⟩ := layout_cases h.lengths hi
  by_cases hstart : i ≤ startOf m.steps blocks k
  · have hp : IsEntry m.steps blocks i := ⟨k, s, hs, hge, hstart⟩
    obtain rfl : x = 0 := h.zero_next (.inl hp) hx
    exact hentry hp hi
  · have hbody := placed_block (closing m) hs hblock
    obtain ⟨vs, hplaced, front, o, vs', n, rfl, rfl, hcounted, _, _⟩ :=
      h.laid.step k s block hs hblock
    have hds := (hplaced.before ((closing m).map fun _ => 0)).right
    rw [List.length_replicate, ← startOf_eq hs] at hds
    rw [List.length_append, List.length_singleton] at hlt
    have hfirst := hentry ⟨k, s, hs, by rw [startOf_eq hs]; omega, Nat.le_refl _⟩
      (show startOf m.steps blocks k < _ by omega)
    have hend : startOf m.steps blocks k + front.length < (bodyOf m blocks).length :=
      (List.getElem?_eq_some_iff.mp hbody.right.get).1
    have hlength : i - startOf m.steps blocks k < (vs' ++ [n]).length := by
      rw [List.length_append, List.length_singleton, hcounted.length_eq]
      omega
    have hv := List.getElem?_eq_getElem hlength
    have hsame := hds.get_add hv
    have hforced := hcounted.forced hd hbody.left h.nodup hfirst hend hv
    have hindex : startOf m.steps blocks k + (i - startOf m.steps blocks k) = i := by omega
    rw [hindex] at hsame hforced
    rw [hforced, Option.some.inj (hsame.symm.trans hx)]

theorem forced_end (h : Traced m blocks ds) {ds' : List Int}
    (hd : Depths (bodyOf m blocks) (Settled m blocks) ds') {y : Int}
    (hy : ds'[(layout m.steps blocks).length]? = some y) : y = 0 := by
  have hend : (layout m.steps blocks).length < (bodyOf m blocks).length := by
    rw [← hd.length_eq]
    exact (List.getElem?_eq_some_iff.mp hy).1
  by_cases hleads : ∃ j, Leads (bodyOf m blocks) j (layout m.steps blocks).length
  · obtain ⟨j, hj⟩ := hleads
    have hjlt : j < (bodyOf m blocks).length := by
      obtain ⟨line, hline, _⟩ := hj
      exact (List.getElem?_eq_some_iff.mp hline).1
    have hlayout : j < (layout m.steps blocks).length := by
      -- a return leads nowhere
      by_contra hge
      obtain ⟨_, _, hret⟩ := closing_line (by omega) hjlt
      obtain ⟨line, hline, hflow⟩ := hj
      obtain rfl : Line.op .ret = line := Option.some.inj (hret.symm.trans hline)
      simp [Line.falls, Line.target?] at hflow
    obtain ⟨line, x, e, hline, hx, he, htakes, _, hedge⟩ := h.accounts hjlt
    have hlt : (layout m.steps blocks).length < (allDepths m ds).length := by
      rw [h.length_allDepths]
      exact hend
    have hget := List.getElem?_eq_getElem hlt
    have hafter := hedge _ _ hj hget
    rw [h.zero_next (.inr rfl) hget] at hafter
    have hfollow := hd.follow hline he htakes (h.forced hd hlayout hx) hj hend
    rw [hy, ← hafter] at hfollow
    exact Option.some.inj hfollow
  · exact hd.zero _ y (.inr ⟨rfl, fun i hi => hleads ⟨i, hi⟩⟩) hy

theorem unique (h : Traced m blocks ds) {ds' : List Int}
    (hd : Depths (bodyOf m blocks) (Settled m blocks) ds') :
    ds' = (allDepths m ds).map Int.ofNat := by
  have hlen : ds'.length = (allDepths m ds).length := by
    rw [hd.length_eq, h.length_allDepths]
  apply List.ext_getElem?
  intro i
  rw [List.getElem?_map]
  cases hx : (allDepths m ds)[i]? with
  | none =>
    have hge := List.getElem?_eq_none_iff.mp hx
    rw [← hlen] at hge
    rw [List.getElem?_eq_none_iff.mpr hge]
    rfl
  | some x =>
    have hi := (List.getElem?_eq_some_iff.mp hx).1
    by_cases hlayout : i < (layout m.steps blocks).length
    · exact h.forced hd hlayout hx
    · rw [h.length_allDepths] at hi
      obtain ⟨rfl, _, _⟩ := closing_line (by omega) hi
      have hget := List.getElem?_eq_getElem (hd.length_eq ▸ hi)
      rw [hget, h.forced_end hd hget, h.zero_next (.inr rfl) hx]
      rfl

theorem ne_nil (h : Traced m blocks ds) : allDepths m ds ≠ [] := by
  intro hnil
  obtain ⟨hds, hclosing⟩ := List.append_eq_nil_iff.mp hnil
  have hlayout : (layout m.steps blocks).length = 0 := by
    rw [← h.laid.length_eq, hds]
    rfl
  cases hs : m.steps[0]? with
  | none =>
    have hsteps : m.steps = [] := by simpa using hs
    simp [closing, Flat.Method.hasReturn, hsteps] at hclosing
  | some s =>
    have hlt : 0 < blocks.length := by
      rw [h.lengths]
      exact (List.getElem?_eq_some_iff.mp hs).1
    have hzero := h.laid.arranged.base_entry h.lengths ⟨0, s, hs, by simp [layout], Nat.zero_le _⟩
    simp [hds] at hzero

end Traced

/-- No line asks for more values than there are or leaves more than `limit`, and some line finds as
many as that. -/
structure Within (body : List Line) (ds : List Int) (limit : Nat) : Prop where
  line : ∀ (i : Nat) (l : Line) (x : Int), body[i]? = some l → ds[i]? = some x →
    ∃ e, l.effect? = some e ∧ 0 ≤ x ∧ e.takes ≤ x ∧ x ≤ limit ∧ x - e.takes + e.puts ≤ limit
  reached : (limit : Int) ∈ ds

namespace Traced

variable {m : Flat.Method} {blocks : List (List Line)} {ds : List Nat}

theorem within (h : Traced m blocks ds) :
    Within (bodyOf m blocks) ((allDepths m ds).map Int.ofNat) (stackUseOf m.steps) := by
  refine ⟨?_, ?_⟩
  · intro i line x hline hx
    rw [List.getElem?_map] at hx
    obtain ⟨n, hn, rfl⟩ := Option.map_eq_some_iff.mp hx
    have hi := (List.getElem?_eq_some_iff.mp hline).1
    obtain ⟨line', x, e, hline', hx, he, htakes, hlimit, _⟩ := h.accounts hi
    obtain rfl : line = line' := Option.some.inj (hline.symm.trans hline')
    obtain rfl : x = n := Option.some.inj (hx.symm.trans hn)
    have hhigh := le_highest (List.mem_of_getElem? hn)
    rw [h.highest_allDepths] at hhigh
    refine ⟨e, he, ?_⟩
    simp only [Int.ofNat_eq_natCast]
    omega
  · rw [← h.highest_allDepths]
    exact List.mem_map.mpr ⟨_, highest_mem h.ne_nil, rfl⟩

theorem first (h : Traced m blocks ds) : (allDepths m ds)[0]? = some 0 := by
  have hlt : 0 < (allDepths m ds).length := List.length_pos_iff.mpr h.ne_nil
  have hget := List.getElem?_eq_getElem hlt
  rw [hget, h.charted.base_first hget]

end Traced

/-! ### Runs -/

theorem step_effect {ω : Oracle} {body : List Line} {p q : Point Work}
    (h : stepLine? ω body p = some q) : ∃ line e, body[p.pc]? = some line ∧
      line.effect? = some e ∧ e.Describes p.store.stack q.store.stack := by
  unfold stepLine? at h
  split at h
  · next name hget =>
    obtain rfl := Option.some.inj h
    exact ⟨_, _, hget, rfl, Nat.zero_le _, rfl⟩
  · next o hget =>
    split at h
    · next s w hexec =>
      obtain rfl := Option.some.inj h
      obtain ⟨e, he, hdescribes⟩ := exec_effect hexec
      exact ⟨_, e, hget, he, hdescribes⟩
    · next name s w hexec =>
      obtain ⟨target, _, rfl⟩ := Option.map_eq_some_iff.mp h
      obtain ⟨e, he, hdescribes⟩ := exec_effect hexec
      exact ⟨_, e, hget, he, hdescribes⟩
    · simp at h
  · simp at h

/-- A run finds on the stack as many values as the depth of the line that it is at. -/
theorem Depths.reaches {ω : Oracle} {body : List Line} {fixed : Nat → Prop} {ds : List Int}
    (h : Depths body fixed ds) (hstart : ds[0]? = some 0) {f : Slots} {w : World} {q : Point Work}
    (hreach : Reaches (stepLine? ω body) ⟨0, ⟨[], f⟩, w⟩ q) {x : Int}
    (hx : ds[q.pc]? = some x) : (q.store.stack.length : Int) = x := by
  induction hreach generalizing x with
  | refl => exact Option.some.inj (hstart.symm.trans hx)
  | @tail p q _ hstep ih =>
    obtain ⟨line, e, hline, he, htakes, hlength⟩ := step_effect hstep
    have hlt : p.pc < ds.length := by
      rw [h.length_eq]
      exact (List.getElem?_eq_some_iff.mp hline).1
    have hget := List.getElem?_eq_getElem hlt
    have hhere := ih hget
    obtain ⟨line', e', hline', he', hedge⟩ := h.edge _ _ _ _ (leads_of_step hstep) hget hx
    obtain rfl : line = line' := Option.some.inj (hline.symm.trans hline')
    obtain rfl : e = e' := Option.some.inj (he.symm.trans he')
    omega

/-! ### Emitted methods -/

theorem target_labelled {header : Header} {code : Code} {m : Flat.Method}
    (h : Flat.Method.assemble header code = .ok m) {s : Step} (hs : s ∈ m.steps) {label : String}
    (htarget : Lowering.target? s.instr = some label) : ∃ s' ∈ m.steps, label ∈ s'.labels := by
  obtain ⟨k, hk, rfl⟩ := List.mem_iff_getElem.mp hs
  have hstep := (Flat.Method.steps_of_assemble h).2.2 k _ (List.getElem?_eq_getElem hk)
  have hjump : ∃ id, Flat.jumpTarget header.name (Flat.attachLabels code []) label = .ok id := by
    have hsuccs := hstep.succs
    cases hinstr : m.steps[k].instr with
    | goto name | branch cond name =>
      obtain rfl : name = label := by simpa [hinstr, Lowering.target?] using htarget
      rw [hinstr] at hsuccs
      obtain ⟨id, hid, _⟩ := Flat.bind_eq_ok.mp hsuccs
      exact ⟨id, hid⟩
    | assign | binary | not | call | ret | getField | putField | single | nop =>
      simp [hinstr, Lowering.target?] at htarget
  obtain ⟨id, hid⟩ := hjump
  unfold Flat.jumpTarget at hid
  cases hl : Flat.labelId? (Flat.attachLabels code []) label with
  | none => simp [hl] at hid
  | some id' =>
    obtain ⟨j, p, _, hp, hmem⟩ := Flat.labelId?_eq_some hl
    rw [← Flat.Method.steps_eq_attachLabels h, List.getElem?_map] at hp
    obtain ⟨s', hs', rfl⟩ := Option.map_eq_some_iff.mp hp
    exact ⟨s', List.mem_of_getElem? hs', hmem⟩

theorem exists_traced {header : Header} {code : Code} {m : Flat.Method}
    (hm : Flat.Method.assemble header code = .ok m) (hlabels : (labelsOf code).Nodup)
    (hlead : ∀ l ∈ labelsOf code, ¬ "cmp_".toList <+: l.toList) {cls : Flat.Class}
    (hnames : Named cls m) {table : SlotTable} {blocks : List (List Line)} {σ : EmitState}
    (hemits : EmitsAll ⟨cls, m, table⟩ m.steps blocks {} σ) : ∃ ds, Traced m blocks ds := by
  obtain ⟨ds, hlaid⟩ := exists_laid hemits hnames.imports hnames.steps
  have hflat := Flat.Method.flatMap_labels hm
  refine ⟨ds, hlaid, hemits.length_eq, ?_, fun s hs label => target_labelled hm hs⟩
  apply nodup_labels m hemits
  · rw [hflat]
    exact hlabels
  · rw [hflat]
    exact hlead

/-- The stack is accounted for exactly. Emission of a method never runs out of values. In the body
of an emitted method there is one way to give each line a depth that is zero at each step, and at a
closing return that no line leads to, and that follows the effect of the lines wherever control may
go. With these depths no line asks for values that are not there, the greatest is the stack limit,
and every run finds as many values on the stack as the depth of its line says. -/
theorem emit_stack_exact (cls : Flat.Class) (m : Flat.Method) (table : SlotTable) :
    (∀ name, Method.emit cls m table ≠ .error (.stackUnderflow name)) ∧
    ∀ (header : Header) (code : Code) (out : Method),
      Flat.Method.assemble header code = .ok m → (labelsOf code).Nodup →
      (∀ l ∈ labelsOf code, ¬ "cmp_".toList <+: l.toList) → Named cls m →
      Method.emit cls m table = .ok out →
      ∃ blocks σ, EmitsAll ⟨cls, m, table⟩ m.steps blocks {} σ ∧ out.body = bodyOf m blocks ∧
        (∃! ds, Depths out.body (Settled m blocks) ds) ∧
        ∀ ds, Depths out.body (Settled m blocks) ds → Within out.body ds out.stackLimit ∧
          ∀ ω f w q, Reaches (stepLine? ω out.body) ⟨0, ⟨[], f⟩, w⟩ q →
            ∀ x, ds[q.pc]? = some x → (q.store.stack.length : Int) = x := by
  refine ⟨fun name h => Bool.false_ne_true (emit_error h).1, ?_⟩
  intro header code out hm hlabels hlead hnames hout
  obtain ⟨blocks, σ, hemits, hbody⟩ := emit_body hout
  obtain ⟨ds, htraced⟩ := exists_traced hm hlabels hlead hnames hemits
  refine ⟨blocks, σ, hemits, hbody, ?_, ?_⟩
  · rw [hbody]
    exact ⟨_, htraced.depths, fun ds' hds' => htraced.unique hds'⟩
  · rw [hbody, stackLimit_emit hout]
    intro ds' hds'
    obtain rfl := htraced.unique hds'
    refine ⟨htraced.within, fun ω f w q hreach x hx => hds'.reaches ?_ hreach hx⟩
    rw [List.getElem?_map, htraced.first]
    rfl

/-- The method `pick` stores a number into an array, so its stack holds three values. -/
theorem emit_stack_exact_pick :
    Method.emit pickClass pickMethod pickTable = .ok pickOut ∧ pickOut.stackLimit = 3 ∧
      ∃ blocks, pickOut.body = bodyOf pickMethod blocks ∧
        (∃! ds, Depths pickOut.body (Settled pickMethod blocks) ds) ∧
        ∀ ds, Depths pickOut.body (Settled pickMethod blocks) ds → Within pickOut.body ds 3 := by
  obtain ⟨blocks, _, _, hbody, hunique, hwithin⟩ :=
    (emit_stack_exact pickClass pickMethod pickTable).2 pickMethod.toHeader pickCode pickOut
      assemble_pick (by decide) (by decide) named_pick emit_pick
  exact ⟨emit_pick, rfl, blocks, hbody, hunique, fun ds hds => (hwithin ds hds).1⟩

/-- `again: goto again;` -/
def spinCode : Code :=
  [.label "again", .instr (.goto "again")]

def spinMethod : Flat.Method where
  name := "spin"
  returnType := .void
  steps := [{ id := 1, labels := ["again"], instr := .goto "again", succs := [1] }]

def spinClass : Flat.Class where
  name := "Top"
  methods := [spinMethod]

def spinTable : SlotTable :=
  ⟨[("this", ⟨0, .self ""⟩)]⟩

def spinOut : Method where
  access := .pack
  isStatic := false
  name := "spin"
  descriptor := "()V"
  stackLimit := 0
  localsLimit := 1
  body := [.label "again", .op (.goto "again"), .op .ret]

/-- Nothing leads to the return behind the jump, so any depth will do for it. -/
theorem depths_spin {fixed : Nat → Prop} (hfixed : ∀ p, fixed p → p ≤ 1) (c : Int) :
    Depths spinOut.body fixed [0, 0, c] := by
  refine ⟨rfl, ?_, ?_⟩
  · intro i x hi hx
    have hle := hfixed i hi
    match i, hle with
    | 0, _ => exact (Option.some.inj hx).symm
    | 1, _ => exact (Option.some.inj hx).symm
  · rintro i j x y ⟨line, hline, hflow⟩ hx hy
    match i, hline with
    | 0, hline =>
      obtain rfl := Option.some.inj hline
      obtain rfl : j = 1 := by simpa [Line.falls, Line.target?] using hflow
      obtain rfl := Option.some.inj hx
      obtain rfl := Option.some.inj hy
      exact ⟨_, _, rfl, rfl, rfl⟩
    | 1, hline =>
      obtain rfl := Option.some.inj hline
      obtain rfl : j = 0 := by
        have hplace : place? spinOut.body "again" = some j := by
          simpa [Line.falls, Line.target?] using hflow
        exact (Option.some.inj hplace).symm
      obtain rfl := Option.some.inj hx
      obtain rfl := Option.some.inj hy
      exact ⟨_, _, rfl, rfl, rfl⟩
    | 2, hline =>
      obtain rfl := Option.some.inj hline
      simp [Line.falls, Line.target?] at hflow

/-- The depth of a closing return is not settled by the steps alone. -/
theorem not_forall_steps_settle_depths :
    ¬ ∀ (cls : Flat.Class) (m : Flat.Method) (table : SlotTable) (header : Header) (code : Code)
      (out : Method), Flat.Method.assemble header code = .ok m → (labelsOf code).Nodup →
      (∀ l ∈ labelsOf code, ¬ "cmp_".toList <+: l.toList) → Named cls m →
      Method.emit cls m table = .ok out →
      ∃ blocks σ, EmitsAll ⟨cls, m, table⟩ m.steps blocks {} σ ∧ out.body = bodyOf m blocks ∧
        ∃! ds, Depths out.body (IsEntry m.steps blocks) ds := by
  intro h
  have hnames : Named spinClass spinMethod :=
    ⟨by decide, by decide, by decide, by decide, by decide⟩
  obtain ⟨blocks, _, _, _, ds, _, hunique⟩ := h spinClass spinMethod spinTable spinMethod.toHeader
    spinCode spinOut (by decide) (by decide) (by decide) hnames (by decide +kernel)
  have hfixed : ∀ p, IsEntry spinMethod.steps blocks p → p ≤ 1 := by
    rintro p ⟨k, s, hs, _, hle⟩
    match k, hs with
    | 0, hs => simpa [startOf, layout, spinMethod] using hle
  have hzero := hunique _ (depths_spin hfixed 0)
  have hone := hunique _ (depths_spin hfixed 1)
  have heq := hzero.trans hone.symm
  simp at heq

end JavaMinus.Assembly
