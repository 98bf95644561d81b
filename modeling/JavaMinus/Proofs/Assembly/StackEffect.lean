import JavaMinus.Proofs.Assembly.ControlFlow
import JavaMinus.Proofs.Assembly.Names
import JavaMinus.Proofs.Assembly.Outcomes

/-!
# Stack effects

How many values a line takes off the operand stack and how many it puts there, as the machine has
it. Lines that belong to one instruction climb from the empty stack to the height that its last line
takes down again. How high they come is the stack use of the instruction.
-/

namespace JavaMinus.Assembly

open JavaMinus.Behaviour
open JavaMinus.Flat (Ty Operand Instr Invocation Flow stackUseAll)

/-! ### Lines -/

structure Effect where
  takes : Nat
  puts : Nat
deriving DecidableEq

/-- A call takes what the descriptor of its method lists. A descriptor that does not read as one has
no effect. -/
def Op.effect? : Op → Option Effect
  | .const _ | .load .. | .new _ => some ⟨0, 1⟩
  | .store .. | .pop | .ifZero _ | .ifNonzero _ | .retValue _ => some ⟨1, 0⟩
  | .getField _ | .newIntArray | .arrayLength => some ⟨1, 1⟩
  | .ifCompare .. | .putField _ => some ⟨2, 0⟩
  | .arrayLoad _ | .arith _ => some ⟨2, 1⟩
  | .arrayStore _ => some ⟨3, 0⟩
  | .nop | .goto _ | .ret => some ⟨0, 0⟩
  | .invoke dispatch method =>
    (Signature.of? method.descriptor).map fun signature =>
      ⟨signature.arity + (if dispatch = .static then 0 else 1), if signature.isVoid then 0 else 1⟩

def Line.effect? : Line → Option Effect
  | .label _ => some ⟨0, 0⟩
  | .op o => o.effect?

/-- The stack changes from `stack` to `stack'` as this effect says. -/
def Effect.Describes (e : Effect) (stack stack' : List Value) : Prop :=
  e.takes ≤ stack.length ∧ stack'.length = stack.length - e.takes + e.puts

theorem popReceiver?_length {dispatch : Dispatch} {stack rest : List Value}
    {receiver : Option Value} (h : popReceiver? dispatch stack = some (receiver, rest)) :
    stack.length = rest.length + if dispatch = .static then 0 else 1 := by
  cases dispatch with
  | static =>
    obtain ⟨_, rfl⟩ : none = receiver ∧ stack = rest := by simpa [popReceiver?] using h
    rfl
  | virtual | special =>
    cases stack with
    | nil => simp [popReceiver?] at h
    | cons v stack =>
      obtain ⟨_, rfl⟩ : some v = receiver ∧ stack = rest := by simpa [popReceiver?] using h
      rfl

theorem work_next {α : Type} {x : Act α} {f : α → Work} {flow : Flow} {s : Work} {w w' : World}
    (h : (x >>= fun a => pure (.next, f a)) w = some ((flow, s), w')) : ∃ a, s = f a := by
  simp only [bind_eq_some, pure_eq_some, Prod.mk.injEq] at h
  obtain ⟨a, _, _, ⟨_, hs⟩, _⟩ := h
  exact ⟨a, hs⟩

/-- The machine changes the stack by the effect of the opcode, whatever the values on it are. -/
theorem exec_effect {ω : Oracle} {o : Op} {s s' : Work} {w w' : World} {flow : Flow}
    (h : o.exec ω s w = some ((flow, s'), w')) :
    ∃ e, o.effect? = some e ∧ e.Describes s.stack s'.stack := by
  obtain ⟨stack, slots⟩ := s
  cases o with
  | const | load | nop | goto | ret =>
    obtain ⟨⟨_, rfl⟩, _⟩ := pure_eq_some.mp h
    exact ⟨_, rfl, by simp [Effect.Describes]⟩
  | store | pop | retValue =>
    cases stack with
    | nil => exact absurd h failure_ne_some
    | cons v rest =>
      obtain ⟨⟨_, rfl⟩, _⟩ := pure_eq_some.mp h
      exact ⟨_, rfl, by simp [Effect.Describes]⟩
  | ifZero | ifNonzero =>
    rcases stack with _ | ⟨n | _ | _, rest⟩
    · exact absurd h failure_ne_some
    · obtain ⟨⟨_, rfl⟩, _⟩ := pure_eq_some.mp h
      exact ⟨_, rfl, by simp [Effect.Describes]⟩
    · exact absurd h failure_ne_some
    · exact absurd h failure_ne_some
  | getField | newIntArray | arrayLength =>
    cases stack with
    | nil => exact absurd h failure_ne_some
    | cons v rest =>
      obtain ⟨_, rfl⟩ := work_next h
      exact ⟨_, rfl, by simp [Effect.Describes]⟩
  | arrayLoad | putField =>
    rcases stack with _ | ⟨v, _ | ⟨v', rest⟩⟩
    · exact absurd h failure_ne_some
    · exact absurd h failure_ne_some
    · obtain ⟨_, rfl⟩ := work_next h
      exact ⟨_, rfl, by simp [Effect.Describes]⟩
  | arrayStore =>
    rcases stack with _ | ⟨v, _ | ⟨v', _ | ⟨v'', rest⟩⟩⟩
    · exact absurd h failure_ne_some
    · exact absurd h failure_ne_some
    · exact absurd h failure_ne_some
    · obtain ⟨_, rfl⟩ := work_next h
      exact ⟨_, rfl, by simp [Effect.Describes]⟩
  | arith =>
    rcases stack with _ | ⟨v, _ | ⟨v', rest⟩⟩
    · exact absurd h failure_ne_some
    · cases v <;> exact absurd h failure_ne_some
    · cases v with
      | null | ref => exact absurd h failure_ne_some
      | int b =>
        cases v' with
        | null | ref => exact absurd h failure_ne_some
        | int a =>
          obtain ⟨_, rfl⟩ := work_next h
          exact ⟨_, rfl, by simp [Effect.Describes]⟩
  | ifCompare =>
    rcases stack with _ | ⟨v, _ | ⟨v', rest⟩⟩
    · exact absurd h failure_ne_some
    · cases v <;> exact absurd h failure_ne_some
    · cases v with
      | null | ref => exact absurd h failure_ne_some
      | int b =>
        cases v' with
        | null | ref => exact absurd h failure_ne_some
        | int a =>
          obtain ⟨⟨_, rfl⟩, _⟩ := pure_eq_some.mp h
          exact ⟨_, rfl, by simp [Effect.Describes]⟩
  | new =>
    obtain ⟨_, rfl⟩ := work_next h
    exact ⟨_, rfl, by simp [Effect.Describes]⟩
  | invoke dispatch method =>
    simp only [Op.exec, bind_eq_some, pure_eq_some, expect_eq_some, Prod.mk.injEq] at h
    obtain ⟨signature, _, ⟨hsignature, _⟩, ⟨args, rest⟩, _, ⟨hargs, _⟩, ⟨receiver, rest'⟩, _,
      ⟨hreceiver, _⟩, v, _, _, ⟨_, rfl⟩, _⟩ := h
    obtain ⟨harity, _, rfl⟩ : signature.arity ≤ stack.length ∧
        (stack.take signature.arity).reverse = args ∧ stack.drop signature.arity = rest := by
      simpa [popArgs?] using hargs
    have hlength := popReceiver?_length hreceiver
    rw [List.length_drop] at hlength
    refine ⟨_, by rw [Op.effect?, hsignature]; rfl, ?_⟩
    unfold Effect.Describes
    cases hvoid : signature.isVoid with
    | true =>
      simp only [hvoid, if_true]
      omega
    | false =>
      simp only [hvoid, Bool.false_eq_true, if_false, List.length_cons]
      omega

/-! ### Lines of one instruction -/

/-- Control passes from this opcode to the line below it and nowhere else. -/
def Op.Passes (o : Op) : Prop :=
  (Line.op o).falls = true ∧ (Line.op o).target? = none

/-- Started with `b` values on the stack, the lines leave `b'` values on it, and each line finds as
many values there as `ds` says. -/
inductive Counted : List Line → Nat → List Nat → Nat → Prop
  | nil (b : Nat) : Counted [] b [] b
  | op {o : Op} {e : Effect} {rest : List Line} {b b' : Nat} {ds : List Nat} (hpasses : o.Passes)
      (heffect : o.effect? = some e) (htakes : e.takes ≤ b)
      (hrest : Counted rest (b - e.takes + e.puts) ds b') : Counted (.op o :: rest) b (b :: ds) b'
  | compare {rest : List Line} {b b' : Nat} {ds : List Nat} (cmp : Comparison) (n : Nat)
      (hrest : Counted rest (b + 1) ds b') :
      Counted (compareLines cmp n ++ rest) (b + 2)
        ([b + 2, b, b + 1, b, b, b + 1] ++ ds) b'

def highest (ds : List Nat) : Nat :=
  ds.foldr max 0

@[simp] theorem highest_nil : highest [] = 0 := rfl

@[simp] theorem highest_cons (d : Nat) (ds : List Nat) :
    highest (d :: ds) = max d (highest ds) := rfl

@[simp] theorem highest_append (ds ds' : List Nat) :
    highest (ds ++ ds') = max (highest ds) (highest ds') := by
  induction ds with
  | nil => simp
  | cons d ds ih => rw [List.cons_append, highest_cons, highest_cons, ih, Nat.max_assoc]

theorem le_highest {ds : List Nat} {d : Nat} (h : d ∈ ds) : d ≤ highest ds := by
  induction ds with
  | nil => simp at h
  | cons d' ds ih =>
    rw [highest_cons]
    rcases List.mem_cons.mp h with rfl | h
    · exact Nat.le_max_left ..
    · exact Nat.le_trans (ih h) (Nat.le_max_right ..)

theorem highest_mem {ds : List Nat} (h : ds ≠ []) : highest ds ∈ ds := by
  induction ds with
  | nil => exact absurd rfl h
  | cons d ds ih =>
    rw [highest_cons]
    cases ds with
    | nil => simp
    | cons d' ds =>
      have hmem := ih (by simp)
      rcases Nat.le_total d (highest (d' :: ds)) with hle | hle
      · rw [Nat.max_eq_right hle]
        exact List.mem_cons_of_mem _ hmem
      · rw [Nat.max_eq_left hle]
        exact List.mem_cons_self ..

namespace Counted

variable {lines more : List Line} {b b₁ b' : Nat} {ds ds' : List Nat}

theorem append (h : Counted lines b ds b₁) (h' : Counted more b₁ ds' b') :
    Counted (lines ++ more) b (ds ++ ds') b' := by
  induction h with
  | nil => exact h'
  | op hpasses heffect htakes _ ih => exact .op hpasses heffect htakes (ih h')
  | compare cmp n _ ih =>
    rw [List.append_assoc, List.append_assoc]
    exact .compare cmp n (ih h')

theorem length_eq (h : Counted lines b ds b') : ds.length = lines.length := by
  induction h with
  | nil => rfl
  | op _ _ _ _ ih => rw [List.length_cons, List.length_cons, ih]
  | compare cmp n _ ih => simp [compareLines, ih]

theorem first (h : Counted lines b ds b') : ∃ rest, ds ++ [b'] = b :: rest := by
  cases h with
  | nil => exact ⟨[], rfl⟩
  | op => exact ⟨_, rfl⟩
  | compare => exact ⟨_, rfl⟩

end Counted

/-- The lines lead from `b` values on the stack to `b'`, and at most `used` values are above the
first `b` on the way. -/
def Climbs (lines : List Line) (b used b' : Nat) : Prop :=
  ∃ ds, Counted lines b ds b' ∧ highest (ds ++ [b']) = b + used

section Climbs

variable {φ : Frame} {lines more : List Line} {b n used used' b' : Nat}

theorem climbs_nil (b : Nat) : Climbs [] b 0 b :=
  ⟨[], .nil b, by simp⟩

theorem Climbs.append (h : Climbs lines b used (b + n)) (h' : Climbs more (b + n) used' b') :
    Climbs (lines ++ more) b (max used (n + used')) b' := by
  obtain ⟨ds, hds, hhigh⟩ := h
  obtain ⟨ds', hds', hhigh'⟩ := h'
  refine ⟨ds ++ ds', hds.append hds', ?_⟩
  obtain ⟨rest, hfirst⟩ := hds'.first
  have hentry : b + n ≤ highest (ds' ++ [b']) := by
    rw [hfirst, highest_cons]
    omega
  rw [List.append_assoc, highest_append]
  rw [highest_append, highest_cons, highest_nil] at hhigh
  omega

/-- The values that the lines leave are taken by one more opcode, which puts `p` values there. -/
theorem Climbs.snoc {p : Nat} (h : Climbs lines b used (b + n)) (o : Op) (hpasses : o.Passes)
    (heffect : o.effect? = some ⟨n, p⟩) : Climbs (lines ++ [.op o]) b (max used p) (b + p) := by
  have hop : Climbs [.op o] (b + n) (max 0 (p - n)) (b + p) := by
    refine ⟨[b + n], .op hpasses heffect (Nat.le_add_left n b) ?_, ?_⟩
    · rw [show b + n - n + p = b + p by omega]
      exact .nil _
    · simp only [List.cons_append, List.nil_append, highest_cons, highest_nil]
      omega
  obtain ⟨ds, hds, hhigh⟩ := h
  have hused : n ≤ used := by
    rw [highest_append, highest_cons] at hhigh
    omega
  have happend := Climbs.append ⟨ds, hds, hhigh⟩ hop
  rw [show max used p = max used (n + max 0 (p - n)) by omega]
  exact happend

theorem Climbs.compare (h : Climbs lines b used (b + 2)) (cmp : Comparison) (k : Nat) :
    Climbs (lines ++ compareLines cmp k) b used (b + 1) := by
  obtain ⟨ds, hds, hhigh⟩ := h
  have hlines : Counted (compareLines cmp k) (b + 2) [b + 2, b, b + 1, b, b, b + 1] (b + 1) :=
    .compare cmp k (.nil (b + 1))
  refine ⟨_, hds.append hlines, ?_⟩
  simp only [highest_append, highest_cons, highest_nil] at hhigh ⊢
  omega

theorem Loads.climbs {op : Operand} (h : Loads φ op lines) (b : Nat) :
    Climbs lines b op.stackUse (b + 1) := by
  induction h generalizing b with
  | lit value ty => exact (climbs_nil b).snoc (.const value) ⟨rfl, rfl⟩ rfl
  | self cls => exact (climbs_nil b).snoc (.load .ref 0) ⟨rfl, rfl⟩ rfl
  | @cell op cell slot hcell hslot =>
    have huse : op.stackUse = 1 := by
      cases op with
      | elem => simp [Operand.cell?] at hcell
      | lit | var | param | self | classRef => rfl
    rw [huse]
    exact (climbs_nil b).snoc (.load (.of op.ty) slot.index) ⟨rfl, rfl⟩ rfl
  | @elem array index a i ty ha hi iha ihi =>
    have hone := array.one_le_stackUse
    have hboth : Climbs (a ++ i) b (max array.stackUse (1 + index.stackUse)) (b + 2) :=
      (iha b).append (ihi (b + 1))
    have hlast := hboth.snoc (.arrayLoad (.of ty)) ⟨rfl, rfl⟩ rfl
    rw [Nat.max_eq_left (by omega)] at hlast
    exact hlast

theorem LoadsAll.climbs {ops : List Operand} (h : LoadsAll φ ops lines) (b : Nat) :
    Climbs lines b (stackUseAll ops) (b + ops.length) := by
  induction h generalizing b with
  | nil => exact climbs_nil b
  | @cons op rest first more hop _ ih =>
    have hrest := ih (b + 1)
    rw [show b + 1 + rest.length = b + (op :: rest).length by rw [List.length_cons]; omega] at hrest
    exact (hop.climbs b).append hrest

/-- The lines climb to what their last opcode, which passes control on, takes; it puts `puts` values
back. -/
def ClimbsTo (lines : List Line) (b used puts : Nat) : Prop :=
  ∃ front o n used', lines = front ++ [.op o] ∧ o.Passes ∧ o.effect? = some ⟨n, puts⟩ ∧
    Climbs front b used' (b + n) ∧ max used' puts = used

theorem ClimbsTo.climbs {puts : Nat} (h : ClimbsTo lines b used puts) :
    Climbs lines b used (b + puts) := by
  obtain ⟨front, o, n, used', rfl, hpasses, heffect, hfront, rfl⟩ := h
  exact hfront.snoc o hpasses heffect

theorem Receives.climbs {invocation : Invocation} {dispatch : Dispatch} {target : Operand}
    (hd : dispatch? invocation = some dispatch) (h : Receives φ dispatch target lines) (b : Nat) :
    Climbs lines b (receiverUse invocation target) (b + if dispatch = .static then 0 else 1) := by
  cases h with
  | static cls =>
    obtain rfl : invocation = .static := by
      cases invocation <;> simp [dispatch?] at hd ⊢
    exact climbs_nil b
  | value hne hload =>
    have hinv : invocation ≠ .static := by
      rintro rfl
      exact hne (by simpa [dispatch?] using hd.symm)
    rw [receiverUse, if_neg hinv, if_neg hne]
    exact hload.climbs b

theorem Calls.climbs {invocation : Invocation} {target : Operand} {method : Option String}
    {args : List Operand} {result : Ty} {hasValue : Bool}
    (h : Calls φ invocation target method args result lines hasValue)
    (himports : ∀ path ∈ φ.cls.imports, IsName path)
    (hargs : ∀ op ∈ args, ∀ x ∈ operandNames op, IsName x) (b : Nat) :
    ClimbsTo lines b (Instr.callStackUse invocation target args result)
      (if hasValue then 1 else 0) := by
  cases h with
  | @newArray size n _ _ _ hsize =>
    have hone := size.one_le_stackUse
    exact ⟨n, _, 1, _, rfl, ⟨rfl, rfl⟩, rfl, hsize.climbs b, Nat.max_eq_left hone⟩
  | newObject _ _ _ hname =>
    refine ⟨[], _, 0, _, rfl, ⟨rfl, rfl⟩, rfl, climbs_nil b, ?_⟩
    simp [Instr.callStackUse, hname]
  | arrayLength _ _ _ htarget =>
    have hone := target.one_le_stackUse
    exact ⟨_, _, 1, _, rfl, ⟨rfl, rfl⟩, rfl, htarget.climbs b, Nat.max_eq_left hone⟩
  | @named _ dispatch _ name _ _ receiver values ref hd hreceiver hvalues href =>
    have hsignature := signature_of_linkage himports hargs href
    have huse := callStackUse_named hd target args result
    have hstatic : (if invocation = .static then 0 else 1) =
        if dispatch = .static then 0 else 1 := by
      cases invocation <;> simp [dispatch?] at hd <;> subst hd <;> rfl
    have hfront := (hreceiver.climbs hd b).append (hvalues.climbs _)
    rw [Nat.add_assoc b, Nat.add_comm _ args.length] at hfront
    rw [hstatic] at huse
    by_cases hvoid : resultType dispatch result = .void
    · refine ⟨receiver ++ values, .invoke dispatch ref, _, _, rfl, ⟨rfl, rfl⟩, ?_, hfront, ?_⟩
      · simp [Op.effect?, hsignature, hvoid]
      · simp only [hvoid, ne_eq, not_true_eq_false, decide_false, if_true, Bool.false_eq_true,
          if_false] at huse ⊢
        omega
    · refine ⟨receiver ++ values, .invoke dispatch ref, _, _, rfl, ⟨rfl, rfl⟩, ?_, hfront, ?_⟩
      · simp [Op.effect?, hsignature, hvoid]
      · simp only [hvoid, ne_eq, not_false_eq_true, decide_true, if_true, if_false] at huse ⊢
        omega

theorem Pushes.climbs {i : Instr} {k k' : Nat} (h : Pushes φ i lines k k')
    (himports : ∀ path ∈ φ.cls.imports, IsName path) (hnames : ∀ x ∈ instrNames i, IsName x)
    (b : Nat) : Climbs lines b i.valueStackUse (b + 1) := by
  cases h with
  | single _ h => exact h.climbs b
  | @arith op a lhs rhs l r _ hop hl hr =>
    have hone := lhs.one_le_stackUse
    have hboth : Climbs (l ++ r) b (max lhs.stackUse (1 + rhs.stackUse)) (b + 2) :=
      (hl.climbs b).append (hr.climbs (b + 1))
    have hlast := hboth.snoc (.arith a) ⟨rfl, rfl⟩ rfl
    rw [Nat.max_eq_left (by omega)] at hlast
    exact hlast
  | compare _ _ hl hr => exact ((hl.climbs b).append (hr.climbs (b + 1))).compare _ _
  | @not op l _ h =>
    have hconst : Climbs (l ++ [.op (.const 1)]) b (max op.stackUse 2) (b + 2) :=
      (h.climbs b).append ((climbs_nil (b + 1)).snoc (.const 1) ⟨rfl, rfl⟩ rfl)
    have hlast := hconst.snoc (.arith .xor) ⟨rfl, rfl⟩ rfl
    rw [Nat.max_eq_left (by omega), List.append_assoc] at hlast
    exact hlast
  | @getField object field l ref _ h _ =>
    have hone := object.one_le_stackUse
    have hlast := (h.climbs b).snoc (.getField ref) ⟨rfl, rfl⟩ rfl
    rw [Nat.max_eq_left hone] at hlast
    exact hlast
  | call _ h => exact (h.climbs himports (argNames_of_call hnames) b).climbs

/-- The lines of an instruction start on the empty stack, find as many values as `ds` says, and
leave the stack empty again. The last line may jump to `target`. -/
def Spans (block : List Line) (ds : List Nat) (target : Option String) : Prop :=
  ∃ front o vs n, block = front ++ [.op o] ∧ ds = vs ++ [n] ∧ Counted front 0 vs n ∧
    o.effect? = some ⟨n, 0⟩ ∧ (Line.op o).target? = target

theorem Spans.length_eq {block : List Line} {ds : List Nat} {target : Option String}
    (h : Spans block ds target) : ds.length = block.length := by
  obtain ⟨front, o, vs, n, rfl, rfl, hfront, _, _⟩ := h
  rw [List.length_append, List.length_append, hfront.length_eq]
  rfl

theorem Climbs.spans {n : Nat} (h : Climbs lines 0 used n) (o : Op)
    (heffect : o.effect? = some ⟨n, 0⟩) :
    ∃ ds, Spans (lines ++ [.op o]) ds (Line.op o).target? ∧ highest ds = used := by
  obtain ⟨vs, hvs, hhigh⟩ := h
  exact ⟨vs ++ [n], ⟨lines, o, vs, n, rfl, rfl, hvs, heffect, rfl⟩, by omega⟩

theorem Emits.spans {i : Instr} {k k' : Nat} (h : Emits φ i lines k k')
    (himports : ∀ path ∈ φ.cls.imports, IsName path) (hnames : ∀ x ∈ instrNames i, IsName x)
    (hdirect : ∀ op label, i = .branch (.not op) label →
      ∃ l, Loads φ op l ∧ lines = l ++ [.op (.ifZero label)]) :
    ∃ ds, Spans lines ds (Lowering.target? i) ∧ highest ds = i.stackUse := by
  have hpair {l r : List Line} {a c : Operand} (hl : Loads φ a l) (hr : Loads φ c r) :
      Climbs (l ++ r) 0 (max a.stackUse (1 + c.stackUse)) 2 :=
    (hl.climbs 0).append (hr.climbs 1)
  cases h with
  | @assignElem array index rhs a i v _ _ ty ty' ha hi hv =>
    have hrhs : ∀ x ∈ instrNames rhs, IsName x :=
      fun x hx => hnames x (List.mem_append_right _ hx)
    exact ((hpair ha hi).append (hv.climbs himports hrhs 2)).spans (.arrayStore (.of ty)) rfl
  | @assignCell dest cell slot rhs v _ _ ty hcell _ hv =>
    have hrhs : ∀ x ∈ instrNames rhs, IsName x :=
      fun x hx => hnames x (List.mem_append_right _ hx)
    have huse : (Instr.assign dest ty rhs).stackUse = rhs.valueStackUse := by
      cases dest with
      | elem => simp [Operand.cell?] at hcell
      | lit | var | param | self | classRef => rfl
    rw [huse]
    exact (hv.climbs himports hrhs 0).spans (.store (.of dest.ty) slot.index) rfl
  | retNone => exact (climbs_nil 0).spans .ret rfl
  | @ret op l _ h => exact (h.climbs 0).spans (.retValue (.of op.ty)) rfl
  | goto label => exact (climbs_nil 0).spans (.goto label) rfl
  | branchCompare label _ _ hl hr => exact (hpair hl hr).spans (.ifCompare _ label) rfl
  | branchNot label _ h => exact (h.climbs 0).spans (.ifZero label) rfl
  | @branchValue cond l _ _ label h =>
    have hcond : ∀ x ∈ instrNames cond, IsName x :=
      fun x hx => hnames x (List.mem_append_left _ hx)
    have hspans := (h.climbs himports hcond 0).spans (.ifNonzero label) rfl
    cases cond with
    | not op =>
      obtain ⟨l', hl', heq⟩ := hdirect op label rfl
      rw [heq]
      exact (hl'.climbs 0).spans (.ifZero label) rfl
    | assign | binary | call | ret | goto | branch | getField | putField | single | nop =>
      exact hspans
  | putField _ ho hx _ => exact (hpair ho hx).spans (.putField _) rfl
  | nop => exact (climbs_nil 0).spans .nop rfl
  | callVoid _ h =>
    obtain ⟨front, o, n, used', rfl, hpasses, heffect, hfront, hused⟩ :=
      h.climbs himports (argNames_of_call hnames) 0
    rw [Nat.zero_add] at hfront
    obtain ⟨ds, hspans, hhigh⟩ := hfront.spans o heffect
    rw [hpasses.2] at hspans
    refine ⟨ds, hspans, ?_⟩
    rw [hhigh]
    exact (Nat.max_zero used').symm.trans hused
  | discard h =>
    have hspans := (h.climbs himports hnames 0).spans .pop rfl
    cases h with
    | single | arith | compare | not | getField | call => exact hspans

theorem instruction_spans {i : Instr} {s s' : EmitState} (h : instruction φ i s = .ok (lines, s'))
    (himports : ∀ path ∈ φ.cls.imports, IsName path) (hnames : ∀ x ∈ instrNames i, IsName x) :
    ∃ ds, Spans lines ds (Lowering.target? i) ∧ highest ds = i.stackUse := by
  refine (instruction_emits h).spans himports hnames ?_
  -- a branch on a negation does not put the negation on the stack
  rintro op label rfl
  obtain ⟨l, s₁, hload, h⟩ := emit_bind.mp h
  obtain ⟨_, s₂, _, h⟩ := emit_bind.mp h
  obtain ⟨rfl, _⟩ := emit_pure.mp h
  exact ⟨l, (load_loads hload).1, rfl⟩

end Climbs

end JavaMinus.Assembly
