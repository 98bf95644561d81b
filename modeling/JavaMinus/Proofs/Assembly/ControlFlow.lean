import JavaMinus.Proofs.Assembly.Layout
import JavaMinus.Proofs.Lowering.ControlFlow

/-!
# Control flow of assembly

Where control may go from a line, whatever the operands are. A set of lines that control does not leave
holds every line that a run comes to.
-/

namespace JavaMinus.Assembly

open JavaMinus.Behaviour
open JavaMinus.Flat (Operand Instr Invocation Ty Flow Point)

/-- Control may go on to the next line. -/
def Line.falls : Line → Bool
  | .op (.goto _) | .op .ret | .op (.retValue _) => false
  | _ => true

def Line.target? : Line → Option String
  | .op (.goto name) | .op (.ifZero name) | .op (.ifNonzero name) | .op (.ifCompare _ name) =>
    some name
  | _ => none

/-- Where a line may send control. -/
def Line.Allows (line : Line) : Flow → Prop
  | .next => line.falls = true
  | .jump name => line.target? = some name
  | .ret _ => True

theorem flow_next {α : Type} {x : Act α} {f : α → Work} {flow : Flow} {s : Work} {w w' : World}
    (h : (x >>= fun a => pure (.next, f a)) w = some ((flow, s), w')) : flow = .next := by
  simp only [bind_eq_some, pure_eq_some, Prod.mk.injEq] at h
  obtain ⟨_, _, _, ⟨hflow, _⟩, _⟩ := h
  exact hflow

theorem exec_allows {ω : Oracle} {o : Op} {s s' : Work} {w w' : World} {flow : Flow}
    (h : o.exec ω s w = some ((flow, s'), w')) : (Line.op o).Allows flow := by
  obtain ⟨stack, slots⟩ := s
  cases o with
  | const | load | nop =>
    obtain ⟨⟨rfl, _⟩, _⟩ := pure_eq_some.mp h
    rfl
  | goto =>
    obtain ⟨⟨rfl, _⟩, _⟩ := pure_eq_some.mp h
    exact rfl
  | ret =>
    obtain ⟨⟨rfl, _⟩, _⟩ := pure_eq_some.mp h
    trivial
  | store | pop =>
    cases stack with
    | nil => exact absurd h failure_ne_some
    | cons v rest =>
      obtain ⟨⟨rfl, _⟩, _⟩ := pure_eq_some.mp h
      rfl
  | retValue =>
    cases stack with
    | nil => exact absurd h failure_ne_some
    | cons v rest =>
      obtain ⟨⟨rfl, _⟩, _⟩ := pure_eq_some.mp h
      trivial
  | getField | newIntArray | arrayLength =>
    cases stack with
    | nil => exact absurd h failure_ne_some
    | cons v rest =>
      obtain rfl := flow_next h
      rfl
  | arrayLoad | putField =>
    rcases stack with _ | ⟨v, _ | ⟨v', rest⟩⟩
    · exact absurd h failure_ne_some
    · exact absurd h failure_ne_some
    · obtain rfl := flow_next h
      rfl
  | arrayStore =>
    rcases stack with _ | ⟨v, _ | ⟨v', _ | ⟨v'', rest⟩⟩⟩
    · exact absurd h failure_ne_some
    · exact absurd h failure_ne_some
    · exact absurd h failure_ne_some
    · obtain rfl := flow_next h
      rfl
  | ifZero | ifNonzero =>
    rcases stack with _ | ⟨n | _ | _, rest⟩
    · exact absurd h failure_ne_some
    · obtain ⟨⟨rfl, _⟩, _⟩ := pure_eq_some.mp h
      split <;> rfl
    · exact absurd h failure_ne_some
    · exact absurd h failure_ne_some
  | arith =>
    rcases stack with _ | ⟨v, _ | ⟨v', rest⟩⟩
    · exact absurd h failure_ne_some
    · cases v <;> exact absurd h failure_ne_some
    · cases v with
      | null | ref => exact absurd h failure_ne_some
      | int b =>
        cases v' with
        | null | ref => exact absurd h failure_ne_some
        | int a =>
          obtain rfl := flow_next h
          rfl
  | ifCompare =>
    rcases stack with _ | ⟨v, _ | ⟨v', rest⟩⟩
    · exact absurd h failure_ne_some
    · cases v <;> exact absurd h failure_ne_some
    · cases v with
      | null | ref => exact absurd h failure_ne_some
      | int b =>
        cases v' with
        | null | ref => exact absurd h failure_ne_some
        | int a =>
          obtain ⟨⟨rfl, _⟩, _⟩ := pure_eq_some.mp h
          split <;> rfl
  | new =>
    obtain rfl := flow_next h
    rfl
  | invoke =>
    simp only [Op.exec, bind_eq_some, pure_eq_some, Prod.mk.injEq] at h
    obtain ⟨_, _, _, _, _, _, _, _, _, _, _, _, ⟨rfl, _⟩, _⟩ := h
    rfl

/-! ### Paths -/

/-- Control may go from line `i` to line `j`. -/
def Leads (body : List Line) (i j : Nat) : Prop :=
  ∃ line, body[i]? = some line ∧
    ((line.falls = true ∧ j = i + 1) ∨ ∃ name, line.target? = some name ∧ place? body name = some j)

theorem leads_of_step {ω : Oracle} {body : List Line} {p q : Point Work}
    (h : stepLine? ω body p = some q) : Leads body p.pc q.pc := by
  unfold stepLine? at h
  split at h
  · next name hget =>
    obtain rfl := Option.some.inj h
    exact ⟨_, hget, .inl ⟨rfl, rfl⟩⟩
  · next o hget =>
    split at h
    · next s w hexec =>
      obtain rfl := Option.some.inj h
      exact ⟨_, hget, .inl ⟨exec_allows hexec, rfl⟩⟩
    · next name s w hexec =>
      obtain ⟨target, htarget, rfl⟩ := Option.map_eq_some_iff.mp h
      exact ⟨_, hget, .inr ⟨name, exec_allows hexec, htarget⟩⟩
    · simp at h
  · simp at h

/-- Control does not leave these lines. -/
def Stays (body : List Line) (region : Nat → Prop) : Prop :=
  ∀ i j, region i → Leads body i j → region j

theorem Stays.reaches {ω : Oracle} {body : List Line} {region : Nat → Prop} {p q : Point Work}
    (h : Stays body region) (hp : region p.pc) (hreach : Reaches (stepLine? ω body) p q) :
    region q.pc := by
  induction hreach with
  | refl => exact hp
  | tail _ hstep ih => exact h _ _ ih (leads_of_step hstep)

/-- No run from the first line on comes to this line, whatever it starts with. -/
def Unreached (body : List Line) (pc : Nat) : Prop :=
  ∀ ω s w s' w', ¬ Reaches (stepLine? ω body) ⟨0, s, w⟩ ⟨pc, s', w'⟩

theorem Stays.unreached {body : List Line} {region : Nat → Prop} {pc : Nat} (h : Stays body region)
    (hstart : region 0) (hpc : ¬ region pc) : Unreached body pc :=
  fun _ _ _ _ _ hreach => hpc (h.reaches hstart hreach)

theorem place?_lt {body : List Line} {name : String} {pc : Nat} (h : place? body name = some pc) :
    pc < body.length := by
  obtain ⟨hlt, _⟩ := List.findIdx?_eq_some_iff_getElem.mp h
  exact hlt

theorem unreached_end {front : List Line} {line : Line} (h : line.falls = false) :
    Unreached (front ++ [line]) (front ++ [line]).length := by
  have hstays : Stays (front ++ [line]) (· < (front ++ [line]).length) := by
    rintro i j hi ⟨line', hget, ⟨hfalls, rfl⟩ | ⟨name, _, hplace⟩⟩
    · have hne : i ≠ front.length := by
        rintro rfl
        obtain rfl : line = line' := by simpa using hget
        simp [h] at hfalls
      rw [List.length_append, List.length_singleton] at hi ⊢
      omega
    · exact place?_lt hplace
  exact hstays.unreached (by simp) (Nat.lt_irrefl _)

/-! ### Jumps of lines -/

def lineJumps (lines : List Line) : List String :=
  lines.filterMap Line.target?

@[simp] theorem lineJumps_nil : lineJumps [] = [] := rfl

@[simp] theorem lineJumps_append (a b : List Line) : lineJumps (a ++ b) = lineJumps a ++ lineJumps b :=
  List.filterMap_append

@[simp] theorem lineJumps_cons (line : Line) (rest : List Line) :
    lineJumps (line :: rest) = line.target?.toList ++ lineJumps rest := by
  cases h : line.target? with
  | none => simp [lineJumps, h]
  | some name => simp [lineJumps, h]

theorem leads_from {body lines : List Line} {pc i j : Nat} {outside : List String}
    (hplaced : Placed body pc lines) (hbody : (lineLabels body).Nodup)
    (hjumps : ∀ name ∈ lineJumps lines, name ∈ lineLabels lines ∨ name ∈ outside)
    (hi : pc ≤ i ∧ i < pc + lines.length) (h : Leads body i j) :
    (pc ≤ j ∧ j ≤ pc + lines.length) ∨ ∃ name ∈ outside, place? body name = some j := by
  obtain ⟨line, hget, ⟨_, rfl⟩ | ⟨name, htarget, hplace⟩⟩ := h
  · left
    omega
  · have hline : line ∈ lines := by
      obtain ⟨before, after, rfl, rfl⟩ := hplaced
      rw [List.append_assoc, List.getElem?_append_right hi.1,
        List.getElem?_append_left (by omega)] at hget
      exact List.mem_of_getElem? hget
    rcases hjumps name (List.mem_filterMap.mpr ⟨line, hline, htarget⟩) with hmem | hmem
    · left
      obtain ⟨line', hline', hname⟩ := List.mem_filterMap.mp hmem
      obtain ⟨a, b, rfl⟩ := List.append_of_mem hline'
      cases line' with
      | op => simp [Line.label?] at hname
      | label name' =>
        obtain rfl : name' = name := by simpa [Line.label?] using hname
        rw [place?_of_placed hplaced.right hbody, Option.some.injEq] at hplace
        rw [List.length_append, List.length_cons]
        omega
    · exact .inr ⟨name, hmem, hplace⟩

section Jumps

variable {φ : Frame} {lines : List Line}

theorem Loads.jumps {op : Operand} (h : Loads φ op lines) : lineJumps lines = [] := by
  induction h with
  | lit | self | cell => rfl
  | elem ty _ _ iha ihi => simp [iha, ihi, Line.target?]

theorem LoadsAll.jumps {ops : List Operand} (h : LoadsAll φ ops lines) : lineJumps lines = [] := by
  induction h with
  | nil => rfl
  | cons hop _ ih => simp [hop.jumps, ih]

theorem Calls.jumps {invocation : Invocation} {target : Operand} {method : Option String}
    {args : List Operand} {result : Ty} {hasValue : Bool}
    (h : Calls φ invocation target method args result lines hasValue) : lineJumps lines = [] := by
  cases h with
  | newArray _ _ _ hsize => simp [hsize.jumps, Line.target?]
  | newObject => rfl
  | arrayLength _ _ _ htarget => simp [htarget.jumps, Line.target?]
  | named _ hreceiver hargs _ =>
    cases hreceiver with
    | static => simp [hargs.jumps, Line.target?]
    | value _ hload => simp [hargs.jumps, hload.jumps, Line.target?]

theorem Pushes.jumps {i : Instr} {n n' : Nat} (h : Pushes φ i lines n n') :
    ∀ name ∈ lineJumps lines, name ∈ lineLabels lines := by
  cases h with
  | single _ h | not _ h | getField _ h _ => simp [h.jumps, Line.target?]
  | arith _ _ hl hr => simp [hl.jumps, hr.jumps, Line.target?]
  | compare _ _ hl hr =>
    simp only [compareLines, lineJumps_append, lineJumps_cons, lineJumps_nil, hl.jumps, hr.jumps,
      lineLabels_append, lineLabels_op, lineLabels_label, lineLabels_nil, Line.target?]
    simp
  | call _ h => simp [h.jumps]

theorem Emits.jumps {i : Instr} {n n' : Nat} (h : Emits φ i lines n n') :
    ∀ name ∈ lineJumps lines, name ∈ lineLabels lines ∨ Lowering.target? i = some name := by
  cases h with
  | assignElem _ _ ha hi hv =>
    simp only [lineJumps_append, lineJumps_cons, lineJumps_nil, ha.jumps, hi.jumps, Line.target?,
      Option.toList_none, List.nil_append, List.append_nil]
    intro name hname
    exact .inl (by simp [hv.jumps name hname])
  | assignCell _ _ _ hv =>
    simp only [lineJumps_append, lineJumps_cons, lineJumps_nil, Line.target?, Option.toList_none,
      List.append_nil]
    intro name hname
    exact .inl (by simp [hv.jumps name hname])
  | retNone | nop => simp [Line.target?]
  | goto => simp [Line.target?, Lowering.target?]
  | branchNot _ _ h => simp [h.jumps, Line.target?, Lowering.target?]
  | branchCompare _ _ _ hl hr => simp [hl.jumps, hr.jumps, Line.target?, Lowering.target?]
  | ret _ h => simp [h.jumps, Line.target?]
  | branchValue label h =>
    simp only [lineJumps_append, lineJumps_cons, lineJumps_nil, Line.target?, Option.toList_some,
      List.append_nil, List.mem_append, List.mem_singleton]
    rintro name (hname | rfl)
    · exact .inl (by simp [h.jumps name hname])
    · exact .inr rfl
  | discard h =>
    simp only [lineJumps_append, lineJumps_cons, lineJumps_nil, Line.target?, Option.toList_none,
      List.append_nil]
    intro name hname
    exact .inl (by simp [h.jumps name hname])
  | putField _ ho hx _ => simp [ho.jumps, hx.jumps, Line.target?]
  | callVoid _ h => simp [h.jumps]

end Jumps

end JavaMinus.Assembly
