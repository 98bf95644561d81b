import JavaMinus.Proofs.Slots.Disjoint

/-!
# The frame of a method

What every table of a method has, whether its variables share slots or not: parameters stand in the
slots of the calling convention, the current object has slot zero to itself, and all slots are below
the limit of the frame. A method that takes more slots than have numbers is out of this.
-/

namespace JavaMinus

open JavaMinus.Flat (Ty Method Param)

namespace SlotTable

/-- How many slots the table of a method takes, counted without wrapping around: those of the calling
convention, and behind them one for each other variable or as many as there are colours. -/
def extent (m : Method) : Option Nat → Nat
  | none => fixedCount m + (nodesOf m).length
  | some _ => sharedExtent m (Liveness.analyze m)

theorem fixedCount_le_extent (m : Method) (limit : Option Nat) : fixedCount m ≤ extent m limit := by
  cases limit with
  | none => exact Nat.le_add_right _ _
  | some limit => exact Nat.le_add_right _ _

/-! ### Slots of their own -/

/-- The names that have no slot yet. -/
def unplaced (t : SlotTable) (vars : List (String × Ty)) : List String :=
  (vars.map (·.1)).filter fun name => !t.contains name

section Unplaced

variable {t : SlotTable} {name : String} {ty : Ty} {index : UInt16} {rest : List (String × Ty)}

theorem unplaced_cons_of_contains (h : t.contains name = true) :
    unplaced t ((name, ty) :: rest) = unplaced t rest := by
  simp [unplaced, h]

theorem unplaced_cons (h : t.contains name = false) :
    unplaced t ((name, ty) :: rest) = name :: unplaced t rest := by
  simp [unplaced, h]

theorem unplaced_insert (h : name ∉ rest.map (·.1)) :
    unplaced (t.insert name index ty) rest = unplaced t rest := by
  apply List.filter_congr
  intro x hx
  have hne : x ≠ name := by
    rintro rfl
    exact h hx
  rw [contains, get?_insert, if_neg hne, contains]

end Unplaced

/-- New names have slots of their own behind those in use. -/
theorem addVars_apart {t : SlotTable} {n : Nat} (h : Apart t n) {vars : List (String × Ty)}
    (hvars : (vars.map (·.1)).Nodup) (hfit : n + (unplaced t vars).length ≤ 65536) :
    Apart (addVars t (.ofNat n) vars) (n + (unplaced t vars).length) ∧
      ∀ name slot, (addVars t (.ofNat n) vars).get? name = some slot →
        t.get? name = some slot ∨ n ≤ slot.index.toNat := by
  induction vars generalizing t n with
  | nil => exact ⟨h, fun _ _ hget => .inl hget⟩
  | cons v rest ih =>
    obtain ⟨x, ty⟩ := v
    rw [List.map_cons, List.nodup_cons] at hvars
    unfold addVars
    cases hx : t.contains x with
    | true =>
      rw [unplaced_cons_of_contains hx] at hfit ⊢
      exact ih h hvars.2 hfit
    | false =>
      rw [unplaced_cons hx, List.length_cons] at hfit ⊢
      have hn : n < 65536 := by omega
      have hrest := ih (h.insert hn x ty) hvars.2 (by rw [unplaced_insert hvars.1]; omega)
      rw [unplaced_insert hvars.1, UInt16.ofNat_add, Nat.add_right_comm] at hrest
      refine ⟨hrest.1, fun name slot hget => ?_⟩
      rcases hrest.2 name slot hget with hold | hle
      · rw [get?_insert] at hold
        split at hold
        · obtain rfl := Option.some.inj hold
          exact .inr (Nat.le_of_eq (UInt16.toNat_ofNat_of_lt' hn).symm)
        · exact .inl hold
      · exact .inr (by omega)

theorem oneSlotEach_apart {m : Method} (hfit : fixedCount m + (nodesOf m).length ≤ 65536) :
    Apart (oneSlotEach m) (fixedCount m + (nodesOf m).length) ∧
      ∀ name slot, (oneSlotEach m).get? name = some slot →
        (fixed m).1.get? name = some slot ∨ fixedCount m ≤ slot.index.toNat := by
  unfold oneSlotEach
  rw [fixed_next]
  exact addVars_apart (fixed_apart (by omega)) (Flat.Method.nodup_vars m) hfit

/-! ### Tables of methods -/

section Tables

variable {m : Method} {limit : Option Nat} {table : SlotTable}

theorem forMethod_fixed (h : forMethod m limit = .ok table) {name : String} {slot : Slot}
    (hget : (fixed m).1.get? name = some slot) : table.get? name = some slot := by
  cases limit with
  | none =>
    obtain rfl := Except.ok.inj h
    exact addVars_keeps hget
  | some limit =>
    have hnot : name ∉ nodesOf m := by
      rw [mem_nodesOf, hget]
      simp
    rw [(get?_allocate h name).2 hnot, hget]

theorem forMethod_index_zero (h : forMethod m limit = .ok table) (hfit : extent m limit ≤ 65535)
    (hm : m.isStatic = false) {name : String} {slot : Slot} (hget : table.get? name = some slot)
    (hzero : slot.index = 0) : name = selfName ∧ name ∉ m.params.map (·.name) := by
  cases limit with
  | some limit => exact allocate_index_zero h hfit hm hget hzero
  | none =>
    obtain rfl := Except.ok.inj h
    rcases (oneSlotEach_apart (Nat.le_succ_of_le hfit)).2 name slot hget with hfixed | hle
    · have hcount := fixedCount_le_extent m none
      exact fixed_index_zero (by omega) hm hfixed hzero
    · rw [hzero, fixedCount, base, hm] at hle
      simp only [UInt16.toNat_zero, Bool.false_eq_true, if_false] at hle
      omega

/-- Names that interfere have different slots; so have all names that no colouring has placed. -/
theorem forMethod_apart (h : forMethod m limit = .ok table) (hfit : extent m limit ≤ 65535)
    {a b : String} {sa sb : Slot} (ha : table.get? a = some sa) (hb : table.get? b = some sb)
    (hne : a ≠ b)
    (hclash : a ∈ nodesOf m → b ∈ nodesOf m →
      b ∈ (InterferenceGraph.build m (Liveness.analyze m)).neighbours a) :
    sa.index ≠ sb.index := by
  cases limit with
  | some limit => exact allocate_apart h hfit ha hb hne hclash
  | none =>
    obtain rfl := Except.ok.inj h
    intro heq
    exact hne ((oneSlotEach_apart (Nat.le_succ_of_le hfit)).1.distinct a b sa sb ha hb heq)

/-- A parameter whose name no other has stands where it is listed, alone. -/
theorem forMethod_param (h : forMethod m limit = .ok table) (hfit : extent m limit ≤ 65535)
    (hnodup : (m.params.map (·.name)).Nodup) {k : Nat} {p : Param} (hp : m.params[k]? = some p) :
    table.get? p.name = some ⟨.ofNat (base m + k), p.ty⟩ ∧
      ∀ name slot, table.get? name = some slot → slot.index = .ofNat (base m + k) →
        name = p.name := by
  have hname : (m.params.map (·.name))[k]? = some p.name := by
    rw [List.getElem?_map, hp, Option.map_some]
  obtain ⟨j, q, hj, hqname, hfixed⟩ := fixed_param (List.mem_of_getElem? hname)
  have hk : k < (m.params.map (·.name)).length := (List.getElem?_eq_some_iff.mp hname).1
  obtain rfl : k = j := by
    refine (List.getElem?_inj hk hnodup).mp ?_
    rw [hname, List.getElem?_map, hj, Option.map_some, hqname]
  obtain rfl : p = q := Option.some.inj (hp.symm.trans hj)
  have hget := forMethod_fixed h hfixed
  refine ⟨hget, fun name slot hslot hindex => ?_⟩
  by_contra hne
  -- a name with a fixed slot is none that the colouring places, so it shares with no other
  refine forMethod_apart h hfit hget hslot (Ne.symm hne) (fun hnode => ?_) hindex.symm
  rw [mem_nodesOf, hfixed] at hnode
  simp at hnode

/-- No slot of a method wraps around to below the first one. -/
theorem forMethod_below (h : forMethod m limit = .ok table) (hfit : extent m limit ≤ 65535)
    {name : String} {slot : Slot} (hget : table.get? name = some slot) :
    slot.index.toNat < extent m limit := by
  cases limit with
  | none =>
    obtain rfl := Except.ok.inj h
    exact (oneSlotEach_apart (Nat.le_succ_of_le hfit)).1.below name slot hget
  | some limit =>
    obtain ⟨hnode, hother⟩ := get?_allocate h name
    by_cases hn : name ∈ nodesOf m
    · obtain ⟨c, ty, hc, hget'⟩ := hnode hn
      obtain rfl := Option.some.inj (hget'.symm.trans hget)
      simp only [toNat_coloured hfit hc]
      exact lt_sharedExtent hc
    · rw [hother hn] at hget
      have hcount := fixedCount_le_extent m (some limit)
      have hbelow := (fixed_apart (m := m) (by omega)).below name slot hget
      omega

end Tables

/-! ### The limit of a frame -/

theorem mem_of_lookup {entries : List (String × Slot)} {name : String} {slot : Slot}
    (h : entries.lookup name = some slot) : (name, slot) ∈ entries := by
  induction entries with
  | nil => cases h
  | cons entry rest ih =>
    obtain ⟨key, s⟩ := entry
    rw [lookup_cons_entry] at h
    split at h
    · next heq =>
      obtain rfl := Option.some.inj h
      rw [heq]
      exact List.mem_cons_self
    · exact List.mem_cons_of_mem _ (ih h)

theorem toNat_add_one {c : UInt16} (h : c.toNat < 65535) : (c + 1).toNat = c.toNat + 1 := by
  rw [UInt16.toNat_add, UInt16.toNat_one]
  omega

theorem index_lt_localsLimit {t : SlotTable} {name : String} {slot : Slot}
    (h : t.get? name = some slot) (hlt : slot.index.toNat < 65535) :
    slot.index.toNat < t.localsLimit := by
  have hmem : (slot.index + 1).toNat ∈ t.entries.map fun e => (e.2.index + 1).toNat :=
    List.mem_map.mpr ⟨(name, slot), mem_of_lookup h, rfl⟩
  have hle := le_foldl_max hmem 0
  rw [toNat_add_one hlt] at hle
  exact hle

theorem localsLimit_le (t : SlotTable) : t.localsLimit ≤ 65535 := by
  refine foldl_max_le_iff.mpr ⟨Nat.zero_le _, fun x hx => ?_⟩
  obtain ⟨e, _, rfl⟩ := List.mem_map.mp hx
  exact Nat.le_of_lt_succ (e.2.index + 1).toNat_lt

theorem forMethod_lt_localsLimit {m : Method} {limit : Option Nat} {table : SlotTable}
    (h : forMethod m limit = .ok table) (hfit : extent m limit ≤ 65535) {name : String} {slot : Slot}
    (hget : table.get? name = some slot) : slot.index.toNat < table.localsLimit :=
  index_lt_localsLimit hget (Nat.lt_of_lt_of_le (forMethod_below h hfit hget) hfit)

section Limit

variable {t : SlotTable} {name : String} {index : UInt16} {n : Nat} {ty : Ty}

theorem mem_insertEntry {slot : Slot} {entries : List (String × Slot)} {e : String × Slot}
    (h : e ∈ insertEntry name slot entries) : e = (name, slot) ∨ e ∈ entries := by
  induction entries with
  | nil => exact .inl (List.mem_singleton.mp h)
  | cons entry rest ih =>
    obtain ⟨n, s⟩ := entry
    simp only [insertEntry] at h
    split at h
    · exact List.mem_cons.mp h
    · split at h
      · exact (List.mem_cons.mp h).imp_right (List.mem_cons_of_mem _)
      · rcases List.mem_cons.mp h with rfl | h
        · exact .inr List.mem_cons_self
        · exact (ih h).imp_right (List.mem_cons_of_mem _)

/-- A slot above all others sets the limit, whether its name is new or not. -/
theorem localsLimit_insert_next (name : String) (ty : Ty) (h : t.localsLimit = n) (hn : n < 65535) :
    (t.insert name (.ofNat n) ty).localsLimit = n + 1 := by
  have hindex : (UInt16.ofNat n).toNat = n := UInt16.toNat_ofNat_of_lt' (Nat.lt_succ_of_lt hn)
  have hnext : (UInt16.ofNat n + 1).toNat = n + 1 := by rw [toNat_add_one (by omega), hindex]
  apply Nat.le_antisymm
  · refine foldl_max_le_iff.mpr ⟨Nat.zero_le _, fun x hx => ?_⟩
    obtain ⟨e, he, rfl⟩ := List.mem_map.mp hx
    rcases mem_insertEntry he with rfl | he
    · exact Nat.le_of_eq hnext
    · have hmem : (e.2.index + 1).toNat ∈ t.entries.map fun e => (e.2.index + 1).toNat :=
        List.mem_map.mpr ⟨e, he, rfl⟩
      have hle : (e.2.index + 1).toNat ≤ t.localsLimit := le_foldl_max hmem 0
      omega
  · have hget : (t.insert name (.ofNat n) ty).get? name = some ⟨.ofNat n, ty⟩ := by
      rw [get?_insert, if_pos rfl]
    have hlt := index_lt_localsLimit hget (by simp only [hindex]; exact hn)
    simp only [hindex] at hlt
    exact hlt

theorem localsLimit_addParams (h : t.localsLimit = n) {ps : List Param}
    (hfit : n + ps.length ≤ 65535) :
    (addParams t (.ofNat n) ps).1.localsLimit = n + ps.length := by
  induction ps generalizing t n with
  | nil => exact h
  | cons p rest ih =>
    rw [List.length_cons] at hfit ⊢
    have hrest := ih (localsLimit_insert_next p.name p.ty h (by omega)) (by omega)
    rwa [UInt16.ofNat_add, Nat.add_right_comm, Nat.add_assoc] at hrest

theorem localsLimit_fixed {m : Method} (hfit : fixedCount m ≤ 65535) :
    (fixed m).1.localsLimit = fixedCount m := by
  unfold fixed
  unfold fixedCount base at hfit ⊢
  split
  · next hm =>
    rw [if_pos hm] at hfit
    exact localsLimit_addParams rfl hfit
  · next hm =>
    rw [if_neg hm] at hfit
    exact localsLimit_addParams (localsLimit_insert_next _ _ rfl (by decide)) hfit

theorem foldl_max_insertEntry {entries : List (String × Slot)} {slot : Slot}
    (h : entries.lookup name = none) (start : Nat) :
    ((insertEntry name slot entries).map fun e => (e.2.index + 1).toNat).foldl max start =
      max ((entries.map fun e => (e.2.index + 1).toNat).foldl max start) (slot.index + 1).toNat := by
  induction entries generalizing start with
  | nil => rfl
  | cons entry rest ih =>
    obtain ⟨n, s⟩ := entry
    rw [lookup_cons_entry] at h
    have hne : name ≠ n := by
      rintro rfl
      simp at h
    rw [if_neg hne] at h
    simp only [insertEntry]
    split
    · simp only [List.map_cons, List.foldl_cons]
      rw [Nat.max_right_comm, Nat.max_comm _ (slot.index + 1).toNat, List.foldl_assoc, Nat.max_comm]
    · simp only [List.map_cons, List.foldl_cons]
      exact ih h _

/-- A new name raises the limit to what its slot needs. -/
theorem localsLimit_insert (ty : Ty) (h : t.get? name = none) :
    (t.insert name index ty).localsLimit = max t.localsLimit (index + 1).toNat :=
  foldl_max_insertEntry h 0

theorem get?_eq_none_of_contains (h : t.contains name = false) : t.get? name = none := by
  simpa [contains] using h

/-- Every name without a slot takes the next one. -/
theorem localsLimit_addVars {vars : List (String × Ty)} (hvars : (vars.map (·.1)).Nodup) :
    (addVars t index vars).localsLimit =
      ((List.range (unplaced t vars).length).map fun k =>
        (index + .ofNat k + 1).toNat).foldl max t.localsLimit := by
  induction vars generalizing t index with
  | nil => rfl
  | cons v rest ih =>
    obtain ⟨x, ty⟩ := v
    rw [List.map_cons, List.nodup_cons] at hvars
    unfold addVars
    cases hx : t.contains x with
    | true =>
      rw [unplaced_cons_of_contains hx]
      exact ih hvars.2
    | false =>
      have hstep (k : Nat) : index + 1 + UInt16.ofNat k = index + .ofNat (k + 1) := by
        rw [UInt16.add_assoc, UInt16.add_comm 1, UInt16.ofNat_add]
        rfl
      have hzero : index + UInt16.ofNat 0 = index := UInt16.add_zero index
      simp only [Bool.false_eq_true, if_false]
      rw [ih hvars.2, unplaced_insert hvars.1, localsLimit_insert _ (get?_eq_none_of_contains hx),
        unplaced_cons hx, List.length_cons, List.range_succ_eq_map, List.map_cons, List.foldl_cons,
        List.map_map]
      simp only [Function.comp_def, hstep, hzero, Nat.succ_eq_add_one]

/-- Colours of new names count from the first free slot. -/
theorem localsLimit_addColoured {vars : List (String × Ty)} {cs : List (String × UInt16)}
    (hcs : (cs.map (·.1)).Nodup)
    (hnew : ∀ x ∈ cs.map (·.1), t.get? x = none ∧ ∃ ty, vars.lookup x = some ty) :
    (addColoured t index vars cs).localsLimit =
      (cs.map fun c => (index + c.2 + 1).toNat).foldl max t.localsLimit := by
  induction cs generalizing t with
  | nil => rfl
  | cons entry rest ih =>
    obtain ⟨x, c⟩ := entry
    rw [List.map_cons, List.nodup_cons] at hcs
    rw [List.map_cons, List.forall_mem_cons] at hnew
    obtain ⟨⟨hx, ty, hty⟩, hrest⟩ := hnew
    simp only [addColoured, hty, List.map_cons, List.foldl_cons]
    rw [← localsLimit_insert ty hx]
    refine ih hcs.2 fun y hy => ?_
    obtain ⟨hget, hlookup⟩ := hrest y hy
    refine ⟨?_, hlookup⟩
    rw [get?_insert, if_neg, hget]
    rintro rfl
    exact hcs.1 hy

end Limit

theorem localsLimit_shared (m : Method) (lv : Liveness) :
    (shared m lv).localsLimit = ((InterferenceGraph.build m lv).colours.map fun c =>
      ((fixed m).2 + c.2 + 1).toNat).foldl max (fixed m).1.localsLimit := by
  obtain ⟨hnames, hnodup⟩ := colours_build m lv
  rw [← hnames] at hnodup
  refine localsLimit_addColoured hnodup fun x hx => ?_
  rw [hnames] at hx
  exact lookup_of_mem_nodesOf hx

theorem localsLimit_oneSlotEach (m : Method) :
    (oneSlotEach m).localsLimit = ((List.range (nodesOf m).length).map fun k =>
      ((fixed m).2 + .ofNat k + 1).toNat).foldl max (fixed m).1.localsLimit :=
  localsLimit_addVars (Flat.Method.nodup_vars m)

theorem fixedCount_le_localsLimit {m : Method} {limit : Option Nat} {table : SlotTable}
    (h : forMethod m limit = .ok table) (hfit : extent m limit ≤ 65535) :
    fixedCount m ≤ table.localsLimit := by
  have hcount := Nat.le_trans (fixedCount_le_extent m limit) hfit
  rw [← localsLimit_fixed hcount]
  cases limit with
  | none =>
    obtain rfl := Except.ok.inj h
    rw [localsLimit_oneSlotEach]
    exact (foldl_max_le_iff.mp (Nat.le_refl _)).1
  | some limit =>
    obtain rfl := eq_shared_of_allocate h
    rw [localsLimit_shared]
    exact (foldl_max_le_iff.mp (Nat.le_refl _)).1

/-! ### More slots than numbers -/

/-- `a = 1; a = a + x; return a;` -/
def crowdedCode : Flat.Code :=
  [.instr (.assignTo (.var "a" .int) (.single (.int 1))),
    .instr (.assignTo (.var "a" .int) (.binary .add (.var "a" .int) (.param 0 "x" .int))),
    .instr (.ret (some (.var "a" .int)))]

def crowdedSteps : List Flat.Step := [
  { id := 1, succs := [2], instr := .assignTo (.var "a" .int) (.single (.int 1)) },
  { id := 2, succs := [3],
    instr := .assignTo (.var "a" .int) (.binary .add (.var "a" .int) (.param 0 "x" .int)) },
  { id := 3, instr := .ret (some (.var "a" .int)) }]

/-- A method with a parameter `x` and others behind it. -/
def crowdedMethod (others : List Param) : Method where
  name := "crowded"
  isStatic := true
  params := { name := "x", ty := .int } :: others
  returnType := .int
  steps := crowdedSteps

/-- Parameters of one name. -/
def crowd (n : Nat) : List Param :=
  List.replicate n { name := "y", ty := .int }

theorem not_mem_crowd {n : Nat} {name : String} (h : name ≠ "y") :
    name ∉ (crowd n).map (·.name) := by
  intro hmem
  obtain ⟨p, hp, rfl⟩ := List.mem_map.mp hmem
  exact h (congrArg Param.name (List.eq_of_mem_replicate hp))

section Crowded

variable {others : List Param}

theorem fixed_crowded (hlen : others.length = 65535) (hx : "x" ∉ others.map (·.name))
    (ha : "a" ∉ others.map (·.name)) :
    (fixed (crowdedMethod others)).2 = 0 ∧
      (fixed (crowdedMethod others)).1.get? "x" = some ⟨0, .int⟩ ∧
      (fixed (crowdedMethod others)).1.get? "a" = none := by
  refine ⟨?_, get?_addParams_of_not_mem _ 1 hx, get?_addParams_of_not_mem _ 1 ha⟩
  have hcount : fixedCount (crowdedMethod others) = 65536 := by
    show 0 + (others.length + 1) = 65536
    omega
  rw [fixed_next, hcount]
  decide

/-- Counting starts again at zero, so a variable shares the slot of the first parameter. -/
theorem shared_crowded (hlen : others.length = 65535) (hx : "x" ∉ others.map (·.name))
    (ha : "a" ∉ others.map (·.name)) (lv : Liveness) :
    (shared (crowdedMethod others) lv).get? "a" = some ⟨0, .int⟩ ∧
      (shared (crowdedMethod others) lv).get? "x" = some ⟨0, .int⟩ := by
  obtain ⟨hnext, hx, ha⟩ := fixed_crowded hlen hx ha
  have hvars : (crowdedMethod others).vars = [("a", .int)] := rfl
  have hnodes : nodesOf (crowdedMethod others) = ["a"] := by
    rw [nodesOf, hvars]
    simp [contains, ha]
  have hcolours : (InterferenceGraph.build (crowdedMethod others) lv).colours = [("a", 0)] := by
    unfold InterferenceGraph.colours
    rw [show (InterferenceGraph.build (crowdedMethod others) lv).nodes = ["a"] from hnodes]
    rfl
  refine ⟨?_, ?_⟩
  · rw [get?_shared (c := 0) (by rw [hcolours]; exact List.mem_singleton_self _)
      (by rw [hvars]; rfl), hnext]
    rfl
  · rw [get?_shared_of_not_mem (by rw [hnodes]; decide), hx]

end Crowded

theorem exists_allocate_crowded : ∃ others table,
    allocate (crowdedMethod others) (Liveness.analyze (crowdedMethod others)) 0 = .ok table ∧
      table.get? "a" = some ⟨0, .int⟩ ∧ table.get? "x" = some ⟨0, .int⟩ := by
  have hlen : (crowd 65535).length = 65535 := List.length_replicate
  obtain ⟨ha, hx⟩ := shared_crowded hlen (not_mem_crowd (by decide)) (not_mem_crowd (by decide)) _
  exact ⟨_, _, allocate_eq _ _ 0, ha, hx⟩

theorem assemble_crowded (others : List Param) :
    Method.assemble (crowdedMethod others).toHeader crowdedCode = .ok (crowdedMethod others) :=
  rfl

end SlotTable

end JavaMinus
