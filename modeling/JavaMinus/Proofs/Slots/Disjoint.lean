import JavaMinus.Slots.Allocation
import Mathlib.Data.List.Nodup
import Mathlib.Data.List.Perm.Subperm

/-!
# Slots that are kept apart

The current object and the parameters have slots of their own below the first free one. Colours count
slots from there on, and nodes that clash never have the same colour. All this holds as long as the
numbers of slots do not wrap around.
-/

namespace JavaMinus

open JavaMinus.Flat (Method Operand Ty Param)

/-! ### Highest numbers -/

theorem foldl_max_le_iff {ns : List Nat} {start n : Nat} :
    ns.foldl max start ≤ n ↔ start ≤ n ∧ ∀ x ∈ ns, x ≤ n := by
  induction ns generalizing start with
  | nil => simp
  | cons x rest ih => rw [List.foldl_cons, ih, Nat.max_le, List.forall_mem_cons, and_assoc]

theorem le_foldl_max {ns : List Nat} {n : Nat} (h : n ∈ ns) (start : Nat) : n ≤ ns.foldl max start :=
  (foldl_max_le_iff.mp (Nat.le_refl _)).2 n h

theorem foldl_max_mem (ns : List Nat) (start : Nat) :
    ns.foldl max start = start ∨ ns.foldl max start ∈ ns := by
  refine List.foldlRecOn (motive := fun n => n = start ∨ n ∈ ns) ns max (.inl rfl) fun n h x hx => ?_
  rcases Nat.le_total x n with hle | hle
  · rw [Nat.max_eq_left hle]
    exact h
  · rw [Nat.max_eq_right hle]
    exact .inr hx

theorem foldl_max_add {α : Type} (n : Nat) (xs : List α) (f : α → Nat) (start : Nat) :
    (xs.map fun x => n + f x).foldl max (n + start) = n + (xs.map f).foldl max start := by
  induction xs generalizing start with
  | nil => rfl
  | cons x rest ih =>
    rw [List.map_cons, List.map_cons, List.foldl_cons, List.foldl_cons, Nat.add_max_add_left, ih]

/-! ### Fixed slots -/

namespace SlotTable

/-- How many slots come before the parameters. -/
def base (m : Method) : Nat :=
  if m.isStatic then 0 else 1

/-- How many slots the calling convention fixes. -/
def fixedCount (m : Method) : Nat :=
  base m + m.params.length

/-- Distinct names have distinct slots, all below `n`. -/
structure Apart (t : SlotTable) (n : Nat) : Prop where
  below : ∀ name slot, t.get? name = some slot → slot.index.toNat < n
  distinct : ∀ a b sa sb, t.get? a = some sa → t.get? b = some sb → sa.index = sb.index → a = b

theorem apart_empty (n : Nat) : Apart {} n :=
  ⟨by intro name slot h; simp [get?] at h, by intro a b sa sb h; simp [get?] at h⟩

theorem Apart.insert {t : SlotTable} {n : Nat} (h : Apart t n) (hn : n < 65536) (name : String)
    (ty : Ty) : Apart (t.insert name (.ofNat n) ty) (n + 1) := by
  have hindex : (UInt16.ofNat n).toNat = n := UInt16.toNat_ofNat_of_lt' hn
  have hnew {x : String} {slot : Slot} (hx : t.get? x = some slot) : slot.index ≠ .ofNat n := by
    intro heq
    have := h.below x slot hx
    rw [heq, hindex] at this
    omega
  constructor
  · intro a slot ha
    rw [get?_insert] at ha
    split at ha
    · obtain rfl := Option.some.inj ha
      simp only [hindex]
      omega
    · have := h.below a slot ha
      omega
  · intro a b sa sb ha hb heq
    rw [get?_insert] at ha hb
    split at ha
    · next ha' =>
      obtain rfl := Option.some.inj ha
      split at hb
      · next hb' => rw [ha', hb']
      · exact absurd heq.symm (hnew hb)
    · split at hb
      · obtain rfl := Option.some.inj hb
        exact absurd heq (hnew ha)
      · exact h.distinct a b sa sb ha hb heq

theorem addParams_apart {t : SlotTable} {n : Nat} (h : Apart t n) {ps : List Param}
    (hfit : n + ps.length ≤ 65536) : Apart (addParams t (.ofNat n) ps).1 (n + ps.length) := by
  induction ps generalizing t n with
  | nil => exact h
  | cons p rest ih =>
    rw [List.length_cons] at hfit ⊢
    have hrest := ih (h.insert (by omega) p.name p.ty) (by omega)
    rwa [UInt16.ofNat_add, Nat.add_right_comm, Nat.add_assoc] at hrest

theorem addParams_next (t : SlotTable) (n : Nat) (ps : List Param) :
    (addParams t (.ofNat n) ps).2 = .ofNat (n + ps.length) := by
  induction ps generalizing t n with
  | nil => rfl
  | cons p rest ih =>
    have hrest := ih (t.insert p.name (.ofNat n) p.ty) (n + 1)
    rwa [UInt16.ofNat_add, Nat.add_right_comm, Nat.add_assoc] at hrest

theorem get?_addParams_of_not_mem (t : SlotTable) (next : UInt16) {ps : List Param} {name : String}
    (h : name ∉ ps.map (·.name)) : (addParams t next ps).1.get? name = t.get? name := by
  induction ps generalizing t next with
  | nil => rfl
  | cons p rest ih =>
    rw [List.map_cons, List.mem_cons, not_or] at h
    rw [addParams, ih _ _ h.2, get?_insert, if_neg h.1]

/-- The last parameter of a name stands where it is listed. -/
theorem get?_addParams (t : SlotTable) (n : Nat) {ps : List Param} {name : String}
    (h : name ∈ ps.map (·.name)) :
    ∃ k p, ps[k]? = some p ∧ p.name = name ∧
      (addParams t (.ofNat n) ps).1.get? name = some ⟨.ofNat (n + k), p.ty⟩ := by
  induction ps generalizing t n with
  | nil => simp at h
  | cons p rest ih =>
    by_cases hrest : name ∈ rest.map (·.name)
    · obtain ⟨k, q, hk, hname, hget⟩ := ih (t.insert p.name (.ofNat n) p.ty) (n + 1) hrest
      refine ⟨k + 1, q, hk, hname, ?_⟩
      rwa [UInt16.ofNat_add, Nat.add_right_comm, Nat.add_assoc] at hget
    · rw [List.map_cons, List.mem_cons] at h
      obtain rfl : name = p.name := h.resolve_right hrest
      refine ⟨0, p, rfl, rfl, ?_⟩
      rw [addParams, get?_addParams_of_not_mem _ _ hrest, get?_insert, if_pos rfl]
      rfl

theorem fixed_apart {m : Method} (hfit : fixedCount m ≤ 65536) :
    Apart (fixed m).1 (fixedCount m) := by
  unfold fixed
  unfold fixedCount base at hfit ⊢
  split
  · next hm =>
    rw [if_pos hm] at hfit
    exact addParams_apart (apart_empty 0) hfit
  · next hm =>
    rw [if_neg hm] at hfit
    exact addParams_apart ((apart_empty 0).insert (by decide) selfName _) hfit

theorem fixed_next (m : Method) : (fixed m).2 = .ofNat (fixedCount m) := by
  unfold fixed fixedCount base
  split
  · exact addParams_next _ 0 m.params
  · exact addParams_next _ 1 m.params

theorem fixed_param {m : Method} {name : String} (h : name ∈ m.params.map (·.name)) :
    ∃ k p, m.params[k]? = some p ∧ p.name = name ∧
      (fixed m).1.get? name = some ⟨.ofNat (base m + k), p.ty⟩ := by
  unfold fixed base
  split
  · exact get?_addParams {} 0 h
  · exact get?_addParams (insert {} selfName 0 (.self "")) 1 h

/-- Only the current object and parameters are fixed, and slot zero is for the current object. -/
theorem fixed_index_zero {m : Method} (hfit : fixedCount m ≤ 65536) (hm : m.isStatic = false)
    {name : String} {slot : Slot} (h : (fixed m).1.get? name = some slot) (hzero : slot.index = 0) :
    name = selfName ∧ name ∉ m.params.map (·.name) := by
  by_cases hp : name ∈ m.params.map (·.name)
  · obtain ⟨k, p, hk, -, hget⟩ := fixed_param hp
    obtain rfl := Option.some.inj (hget.symm.trans h)
    have hlt := (List.getElem?_eq_some_iff.mp hk).1
    have hbase : base m = 1 := by rw [base, hm]; rfl
    have hindex := UInt16.toNat_ofNat_of_lt' (show base m + k < 65536 by unfold fixedCount at hfit; omega)
    rw [show UInt16.ofNat (base m + k) = 0 from hzero] at hindex
    simp only [UInt16.toNat_zero] at hindex
    omega
  · refine ⟨?_, hp⟩
    unfold fixed at h
    simp only [hm, Bool.false_eq_true, if_false] at h
    rw [get?_addParams_of_not_mem _ _ hp, get?_insert] at h
    split at h
    · assumption
    · simp [get?] at h

end SlotTable

/-! ### Variables of a method -/

namespace Flat.Method

theorem addVar_var_seen {seen : List (String × Ty)} {name : String} (ty : Ty)
    (h : name ∈ seen.map (·.1)) : addVar seen (.var name ty) = seen := by
  obtain ⟨v, hv, hname⟩ := List.mem_map.mp h
  have hany : (seen.any fun v => v.1 == name) = true :=
    List.any_eq_true.mpr ⟨v, hv, by simpa using hname⟩
  simp [addVar, hany]

theorem addVar_var_new {seen : List (String × Ty)} {name : String} (ty : Ty)
    (h : name ∉ seen.map (·.1)) : addVar seen (.var name ty) = seen ++ [(name, ty)] := by
  have hany : (seen.any fun v => v.1 == name) = false := by
    rw [List.any_eq_false]
    intro v hv hname
    exact h (List.mem_map.mpr ⟨v, hv, by simpa using hname⟩)
  simp [addVar, hany]

theorem mem_addVar {seen : List (String × Ty)} {op : Operand} {name : String} :
    name ∈ (addVar seen op).map (·.1) ↔ name ∈ seen.map (·.1) ∨ ∃ ty, op = .var name ty := by
  cases op with
  | var x ty =>
    by_cases hx : x ∈ seen.map (·.1)
    · rw [addVar_var_seen ty hx]
      refine ⟨.inl, ?_⟩
      rintro (h | ⟨ty', heq⟩)
      · exact h
      · obtain ⟨rfl, _⟩ := Operand.var.inj heq
        exact hx
    · rw [addVar_var_new ty hx, List.map_append, List.mem_append]
      refine or_congr_right ⟨?_, ?_⟩
      · intro h
        obtain rfl : name = x := by simpa using h
        exact ⟨ty, rfl⟩
      · rintro ⟨ty', heq⟩
        obtain ⟨rfl, _⟩ := Operand.var.inj heq
        simp
  | lit | param | elem | self | classRef => simp [addVar]

theorem nodup_addVar {seen : List (String × Ty)} (op : Operand) (h : (seen.map (·.1)).Nodup) :
    ((addVar seen op).map (·.1)).Nodup := by
  cases op with
  | var x ty =>
    by_cases hx : x ∈ seen.map (·.1)
    · rw [addVar_var_seen ty hx]
      exact h
    · rw [addVar_var_new ty hx, List.map_append]
      refine List.nodup_append.mpr ⟨h, by simp, ?_⟩
      rintro a ha b hb rfl
      obtain rfl : a = x := by simpa using hb
      exact hx ha
  | lit | param | elem | self | classRef => exact h

theorem nodup_foldl_addVar {ops : List Operand} {seen : List (String × Ty)}
    (h : (seen.map (·.1)).Nodup) : ((ops.foldl addVar seen).map (·.1)).Nodup := by
  induction ops generalizing seen with
  | nil => exact h
  | cons op rest ih => exact ih (nodup_addVar op h)

theorem mem_foldl_addVar {ops : List Operand} {seen : List (String × Ty)} {name : String} :
    name ∈ (ops.foldl addVar seen).map (·.1) ↔
      name ∈ seen.map (·.1) ∨ ∃ ty, .var name ty ∈ ops := by
  induction ops generalizing seen with
  | nil => simp
  | cons op rest ih =>
    rw [List.foldl_cons, ih, mem_addVar, or_assoc]
    refine or_congr_right ⟨?_, ?_⟩
    · rintro (⟨ty, rfl⟩ | ⟨ty, h⟩)
      · exact ⟨ty, List.mem_cons_self⟩
      · exact ⟨ty, List.mem_cons_of_mem op h⟩
    · rintro ⟨ty, h⟩
      rcases List.mem_cons.mp h with rfl | h
      · exact .inl ⟨ty, rfl⟩
      · exact .inr ⟨ty, h⟩

theorem nodup_vars (m : Method) : (m.vars.map (·.1)).Nodup :=
  nodup_foldl_addVar (by simp)

theorem mem_vars {m : Method} {name : String} :
    name ∈ m.vars.map (·.1) ↔ ∃ s ∈ m.steps, ∃ ty, .var name ty ∈ s.instr.operands := by
  unfold vars
  rw [mem_foldl_addVar]
  simp only [List.map_nil, List.not_mem_nil, false_or, List.mem_flatMap]
  constructor
  · rintro ⟨ty, s, hs, h⟩
    exact ⟨s, hs, ty, h⟩
  · rintro ⟨s, hs, ty, h⟩
    exact ⟨ty, s, hs, h⟩

end Flat.Method

/-! ### Colours -/

namespace InterferenceGraph

/-- A list that holds the first `n` numbers has at least `n` elements. -/
theorem le_length_of_forall_mem {n : Nat} (hn : n ≤ 65536) {cs : List UInt16}
    (h : ∀ c : UInt16, c.toNat < n → c ∈ cs) : n ≤ cs.length := by
  have hsub : ∀ k ∈ List.range n, k ∈ cs.map UInt16.toNat := by
    intro k hk
    have hlt := List.mem_range.mp hk
    have hindex : (UInt16.ofNat k).toNat = k :=
      UInt16.toNat_ofNat_of_lt' (Nat.lt_of_lt_of_le hlt hn)
    exact List.mem_map.mpr ⟨.ofNat k, h _ (by rwa [hindex]), hindex⟩
  have hlen := (List.nodup_range.subperm hsub).length_le
  rwa [List.length_range, List.length_map] at hlen

/-- Unless all numbers are taken, a free one is found. -/
theorem lowestFree_not_mem {taken : List UInt16} (h : 65535 ∉ taken) : lowestFree taken ∉ taken := by
  unfold lowestFree
  cases hf : ((List.range (taken.length + 1)).map UInt16.ofNat).find? fun c => !taken.contains c with
  | some c =>
    have hc := List.find?_some hf
    simpa using hc
  | none =>
    -- otherwise all numbers up to the length would be taken
    have hall (c : UInt16) (hc : c.toNat < taken.length + 1) : c ∈ taken := by
      have hmem : c ∈ (List.range (taken.length + 1)).map UInt16.ofNat :=
        List.mem_map.mpr ⟨c.toNat, List.mem_range.mpr hc, UInt16.ofNat_toNat⟩
      simpa using List.find?_eq_none.mp hf c hmem
    have hshort : taken.length < 65535 := by
      by_contra hlong
      exact h (hall 65535 (Nat.lt_succ_of_le (Nat.le_of_not_lt hlong)))
    have hlen := le_length_of_forall_mem (by omega) hall
    omega

variable {g : InterferenceGraph}

theorem mem_neighbours {a b : String} : b ∈ g.neighbours a ↔
    ∃ clash ∈ g.clashes, (clash.1 = a ∧ b ∈ clash.2) ∨ (clash.1 ≠ a ∧ a ∈ clash.2 ∧ b = clash.1) := by
  unfold neighbours
  rw [List.mem_flatMap]
  constructor
  · rintro ⟨⟨d, live⟩, hmem, h⟩
    refine ⟨⟨d, live⟩, hmem, ?_⟩
    simp only at h ⊢
    split at h
    · next hd => exact .inl ⟨by simpa using hd, h⟩
    · next hd =>
      split at h
      · next hl => exact .inr ⟨by simpa using hd, by simpa using hl, by simpa using h⟩
      · simp at h
  · rintro ⟨⟨d, live⟩, hmem, ⟨hd, hb⟩ | ⟨hd, ha, hb⟩⟩
    · refine ⟨⟨d, live⟩, hmem, ?_⟩
      simp only at hd hb ⊢
      rw [if_pos (by simpa using hd)]
      exact hb
    · refine ⟨⟨d, live⟩, hmem, ?_⟩
      simp only at hd ha hb ⊢
      rw [if_neg (by simpa using hd), if_pos (by simpa using ha)]
      simp [hb]

theorem neighbours_symm {a b : String} (hne : a ≠ b) (h : b ∈ g.neighbours a) :
    a ∈ g.neighbours b := by
  obtain ⟨clash, hmem, ⟨hd, hb⟩ | ⟨_, ha, hb⟩⟩ := mem_neighbours.mp h
  · exact mem_neighbours.mpr ⟨clash, hmem, .inr ⟨by rw [hd]; exact hne, hb, hd.symm⟩⟩
  · exact mem_neighbours.mpr ⟨clash, hmem, .inl ⟨hb.symm, ha⟩⟩

/-- Coloured nodes that clash have different colours. -/
def Proper (g : InterferenceGraph) (done : List (String × UInt16)) : Prop :=
  ∀ a b ca cb, (a, ca) ∈ done → (b, cb) ∈ done → a ≠ b → b ∈ g.neighbours a → ca ≠ cb

theorem mem_takenBy {done : List (String × UInt16)} {node : String} {c : UInt16} :
    c ∈ g.takenBy done node ↔ ∃ other ∈ g.neighbours node, (other, c) ∈ done := by
  unfold takenBy
  simp only [List.mem_map, List.mem_filter, List.contains_iff_mem, Prod.exists]
  constructor
  · rintro ⟨other, d, ⟨hmem, hnear⟩, rfl⟩
    exact ⟨other, hnear, hmem⟩
  · rintro ⟨other, hnear, hmem⟩
    exact ⟨other, c, ⟨hmem, hnear⟩, rfl⟩

theorem proper_append {done : List (String × UInt16)} (h : g.Proper done)
    (hfree : ∀ e ∈ done, e.2 ≠ 65535) {node : String} :
    g.Proper (done ++ [(node, lowestFree (g.takenBy done node))]) := by
  have hlast : 65535 ∉ g.takenBy done node := by
    intro hmem
    obtain ⟨other, -, hother⟩ := mem_takenBy.mp hmem
    exact hfree _ hother rfl
  have htaken : ∀ a ca, (a, ca) ∈ done → a ∈ g.neighbours node →
      ca ≠ lowestFree (g.takenBy done node) := by
    intro a ca hmem hnear heq
    exact lowestFree_not_mem hlast (heq ▸ mem_takenBy.mpr ⟨a, hnear, hmem⟩)
  intro a b ca cb ha hb hne hnear
  rw [List.mem_append, List.mem_singleton, Prod.mk.injEq] at ha hb
  -- either node may be the new one, and the clash is seen from both of them
  rcases ha with ha | ⟨rfl, rfl⟩
  · rcases hb with hb | ⟨rfl, rfl⟩
    · exact h a b ca cb ha hb hne hnear
    · exact htaken a ca ha (neighbours_symm hne hnear)
  · rcases hb with hb | ⟨rfl, rfl⟩
    · exact (htaken b cb hb hnear).symm
    · exact absurd rfl hne

/-- Colouring gives every node one colour. -/
theorem colours_names (g : InterferenceGraph) : g.colours.map (·.1) = g.nodes := by
  have hfold : ∀ (nodes : List String) (done : List (String × UInt16)),
      (nodes.foldl (fun done node => done ++ [(node, lowestFree (g.takenBy done node))]) done).map
        (·.1) = done.map (·.1) ++ nodes := by
    intro nodes
    induction nodes with
    | nil => simp
    | cons node rest ih =>
      intro done
      rw [List.foldl_cons, ih]
      simp
  exact hfold g.nodes []

/-- Clashing nodes have different colours, unless the last colour of all is in use. -/
theorem colours_proper (h : ∀ e ∈ g.colours, e.2 ≠ 65535) : g.Proper g.colours := by
  have hempty : (∀ e ∈ ([] : List (String × UInt16)), e.2 ≠ 65535) → g.Proper [] := by
    intro _ a b ca cb ha
    simp at ha
  have hfold : (∀ e ∈ g.colours, e.2 ≠ 65535) → g.Proper g.colours := by
    refine List.foldlRecOn (motive := fun (done : List (String × UInt16)) =>
      (∀ e ∈ done, e.2 ≠ 65535) → g.Proper done) g.nodes _ hempty fun done ih node _ hfree => ?_
    have hdone : ∀ e ∈ done, e.2 ≠ 65535 := fun e he => hfree e (List.mem_append_left _ he)
    exact proper_append (ih hdone) hdone
  exact hfold h

end InterferenceGraph

/-! ### Allocated tables -/

namespace SlotTable

theorem get?_addColoured (t : SlotTable) (n : UInt16) (vars : List (String × Ty))
    {cs : List (String × UInt16)} (hcs : (cs.map (·.1)).Nodup) (name : String) :
    (∀ c ty, (name, c) ∈ cs → vars.lookup name = some ty →
      (addColoured t n vars cs).get? name = some ⟨n + c, ty⟩) ∧
    (name ∉ cs.map (·.1) → (addColoured t n vars cs).get? name = t.get? name) := by
  induction cs generalizing t with
  | nil => simp [addColoured]
  | cons entry rest ih =>
    obtain ⟨x, cx⟩ := entry
    rw [List.map_cons, List.nodup_cons] at hcs
    obtain ⟨hx, hrest⟩ := hcs
    unfold addColoured
    refine ⟨?_, ?_⟩
    · intro c ty hmem hty
      rcases List.mem_cons.mp hmem with heq | hmem
      · obtain ⟨rfl, rfl⟩ := Prod.mk.inj heq
        simp only [hty]
        rw [(ih (t.insert name (n + c) ty) hrest).2 hx, get?_insert, if_pos rfl]
      · split
        · exact (ih _ hrest).1 c ty hmem hty
        · exact (ih _ hrest).1 c ty hmem hty
    · intro hname
      rw [List.map_cons, List.mem_cons, not_or] at hname
      split
      · rw [(ih _ hrest).2 hname.2, get?_insert, if_neg hname.1]
      · exact (ih _ hrest).2 hname.2

theorem lookup_isSome_of_mem {vars : List (String × Ty)} {name : String}
    (h : name ∈ vars.map (·.1)) : ∃ ty, vars.lookup name = some ty := by
  induction vars with
  | nil => simp at h
  | cons v rest ih =>
    by_cases heq : name = v.1
    · have hself : (name == v.1) = true := by simpa using heq
      exact ⟨v.2, by rw [List.lookup_cons, hself]⟩
    · obtain ⟨ty, hty⟩ := ih (by simpa [heq] using h)
      have hne : (name == v.1) = false := by simpa using heq
      refine ⟨ty, ?_⟩
      rw [List.lookup_cons, hne]
      exact hty

def nodesOf (m : Method) : List String :=
  (m.vars.map (·.1)).filter fun name => !(fixed m).1.contains name

theorem mem_nodesOf {m : Method} {name : String} :
    name ∈ nodesOf m ↔ name ∈ m.vars.map (·.1) ∧ (fixed m).1.get? name = none := by
  simp [nodesOf, contains]

section Shared

variable (m : Method) (lv : Liveness)

def needed : Nat :=
  InterferenceGraph.colourCount (InterferenceGraph.build m lv).colours

def shared : SlotTable :=
  addColoured (fixed m).1 (fixed m).2 m.vars (InterferenceGraph.build m lv).colours

theorem allocate_eq (limit : Nat) :
    allocate m lv limit =
      if 0 < limit ∧ limit < needed m lv then .error (.slotLimit m.name (needed m lv) limit)
      else .ok (shared m lv) := by
  simp only [allocate, Bool.and_eq_true, decide_eq_true_eq, gt_iff_lt]
  rfl

theorem colours_build :
    (InterferenceGraph.build m lv).colours.map (·.1) = nodesOf m ∧ (nodesOf m).Nodup :=
  ⟨InterferenceGraph.colours_names _, (Flat.Method.nodup_vars m).filter _⟩

variable {m lv}

theorem eq_shared_of_allocate {limit : Nat} {table : SlotTable}
    (h : allocate m lv limit = .ok table) : table = shared m lv := by
  rw [allocate_eq] at h
  split at h
  · cases h
  · exact (Except.ok.inj h).symm

theorem lookup_of_mem_nodesOf {name : String} (h : name ∈ nodesOf m) :
    (fixed m).1.get? name = none ∧ ∃ ty, m.vars.lookup name = some ty :=
  ⟨(mem_nodesOf.mp h).2, lookup_isSome_of_mem (mem_nodesOf.mp h).1⟩

theorem exists_colour (lv : Liveness) {name : String} (h : name ∈ nodesOf m) :
    ∃ c, (name, c) ∈ (InterferenceGraph.build m lv).colours := by
  rw [← (colours_build m lv).1] at h
  obtain ⟨⟨x, c⟩, hmem, rfl⟩ := List.mem_map.mp h
  exact ⟨c, hmem⟩

theorem get?_shared {name : String} {c : UInt16}
    (h : (name, c) ∈ (InterferenceGraph.build m lv).colours) {ty : Ty}
    (hty : m.vars.lookup name = some ty) :
    (shared m lv).get? name = some ⟨(fixed m).2 + c, ty⟩ := by
  obtain ⟨hnames, hnodup⟩ := colours_build m lv
  rw [← hnames] at hnodup
  exact (get?_addColoured _ _ m.vars hnodup name).1 c ty h hty

theorem get?_shared_of_not_mem {name : String} (h : name ∉ nodesOf m) :
    (shared m lv).get? name = (fixed m).1.get? name := by
  obtain ⟨hnames, hnodup⟩ := colours_build m lv
  rw [← hnames] at hnodup h
  exact (get?_addColoured _ _ m.vars hnodup name).2 h

end Shared

theorem get?_allocate {m : Method} {lv : Liveness} {limit : Nat} {table : SlotTable}
    (h : allocate m lv limit = .ok table) (name : String) :
    (name ∈ nodesOf m → ∃ c ty, (name, c) ∈ (InterferenceGraph.build m lv).colours ∧
      table.get? name = some ⟨(fixed m).2 + c, ty⟩) ∧
    (name ∉ nodesOf m → table.get? name = (fixed m).1.get? name) := by
  obtain rfl := eq_shared_of_allocate h
  refine ⟨fun hname => ?_, get?_shared_of_not_mem⟩
  obtain ⟨_, ty, hty⟩ := lookup_of_mem_nodesOf hname
  obtain ⟨c, hc⟩ := exists_colour lv hname
  exact ⟨c, ty, hc, get?_shared hc hty⟩

/-- How many slots a method takes if its variables share them, counted without wrapping around. -/
def sharedExtent (m : Method) (lv : Liveness) : Nat :=
  fixedCount m + ((InterferenceGraph.build m lv).colours.map fun c => c.2.toNat + 1).foldl max 0

theorem lt_sharedExtent {m : Method} {lv : Liveness} {name : String} {c : UInt16}
    (h : (name, c) ∈ (InterferenceGraph.build m lv).colours) :
    fixedCount m + c.toNat < sharedExtent m lv := by
  have hmem : c.toNat + 1 ∈ (InterferenceGraph.build m lv).colours.map fun c => c.2.toNat + 1 :=
    List.mem_map.mpr ⟨(name, c), h, rfl⟩
  have hle := le_foldl_max hmem 0
  unfold sharedExtent
  omega

section Allocated

variable {m : Method} {lv : Liveness} {limit : Nat} {table : SlotTable}

theorem allocate_defined (h : allocate m lv limit = .ok table) {name : String}
    (hname : name ∈ m.vars.map (·.1) ∨ name ∈ m.params.map (·.name)) :
    ∃ slot, table.get? name = some slot := by
  obtain ⟨hnode, hother⟩ := get?_allocate h name
  by_cases hn : name ∈ nodesOf m
  · obtain ⟨c, ty, _, hget⟩ := hnode hn
    exact ⟨_, hget⟩
  · rw [hother hn]
    cases hf : (fixed m).1.get? name with
    | some slot => exact ⟨slot, rfl⟩
    | none =>
      rcases hname with hvar | hparam
      · exact absurd (mem_nodesOf.mpr ⟨hvar, hf⟩) hn
      · obtain ⟨k, p, -, -, hslot⟩ := fixed_param hparam
        rw [hslot] at hf
        cases hf

/-- Without wrapping around, a colour counts from the first free slot. -/
theorem toNat_coloured (hfit : sharedExtent m lv ≤ 65535) {name : String} {c : UInt16}
    (h : (name, c) ∈ (InterferenceGraph.build m lv).colours) :
    ((fixed m).2 + c).toNat = fixedCount m + c.toNat := by
  have hlt := lt_sharedExtent h
  rw [fixed_next, UInt16.toNat_add, UInt16.toNat_ofNat']
  omega

theorem allocate_index_zero (h : allocate m lv limit = .ok table) (hfit : sharedExtent m lv ≤ 65535)
    (hm : m.isStatic = false) {name : String} {slot : Slot} (hget : table.get? name = some slot)
    (hzero : slot.index = 0) : name = selfName ∧ name ∉ m.params.map (·.name) := by
  obtain ⟨hnode, hother⟩ := get?_allocate h name
  by_cases hn : name ∈ nodesOf m
  · obtain ⟨c, ty, hc, hget'⟩ := hnode hn
    obtain rfl := Option.some.inj (hget'.symm.trans hget)
    have hindex := toNat_coloured hfit hc
    rw [show (fixed m).2 + c = 0 from hzero, fixedCount, base, hm] at hindex
    simp only [UInt16.toNat_zero, Bool.false_eq_true, if_false] at hindex
    omega
  · rw [hother hn] at hget
    have hfixed : fixedCount m ≤ 65536 := by unfold sharedExtent at hfit; omega
    exact fixed_index_zero hfixed hm hget hzero

/-- Distinct names have distinct slots, unless both are coloured and do not clash. -/
theorem allocate_apart (h : allocate m lv limit = .ok table) (hfit : sharedExtent m lv ≤ 65535)
    {a b : String} {sa sb : Slot} (ha : table.get? a = some sa) (hb : table.get? b = some sb)
    (hne : a ≠ b)
    (hclash : a ∈ nodesOf m → b ∈ nodesOf m → b ∈ (InterferenceGraph.build m lv).neighbours a) :
    sa.index ≠ sb.index := by
  have hfixed : Apart (fixed m).1 (fixedCount m) :=
    fixed_apart (by unfold sharedExtent at hfit; omega)
  -- a coloured name stands behind all fixed ones
  have hbehind {x y : String} {sy : Slot} {c : UInt16}
      (hc : (x, c) ∈ (InterferenceGraph.build m lv).colours) (hy : (fixed m).1.get? y = some sy) :
      (fixed m).2 + c ≠ sy.index := by
    intro heq
    have hindex := toNat_coloured hfit hc
    have hlt := hfixed.below y sy hy
    rw [heq] at hindex
    omega
  obtain ⟨hnode₁, hother₁⟩ := get?_allocate h a
  obtain ⟨hnode₂, hother₂⟩ := get?_allocate h b
  by_cases hna : a ∈ nodesOf m
  · obtain ⟨ca, tya, hca, hgeta⟩ := hnode₁ hna
    obtain rfl := Option.some.inj (hgeta.symm.trans ha)
    by_cases hnb : b ∈ nodesOf m
    · obtain ⟨cb, tyb, hcb, hgetb⟩ := hnode₂ hnb
      obtain rfl := Option.some.inj (hgetb.symm.trans hb)
      have hfree : ∀ e ∈ (InterferenceGraph.build m lv).colours, e.2 ≠ 65535 := by
        rintro ⟨name, c⟩ hc rfl
        have hlt := lt_sharedExtent hc
        simp only [UInt16.reduceToNat] at hlt
        omega
      have hcolour := InterferenceGraph.colours_proper hfree a b ca cb hca hcb hne (hclash hna hnb)
      exact fun heq => hcolour ((UInt16.add_right_inj _).mp heq)
    · rw [hother₂ hnb] at hb
      exact hbehind hca hb
  · rw [hother₁ hna] at ha
    by_cases hnb : b ∈ nodesOf m
    · obtain ⟨cb, tyb, hcb, hgetb⟩ := hnode₂ hnb
      obtain rfl := Option.some.inj (hgetb.symm.trans hb)
      exact (hbehind hcb ha).symm
    · rw [hother₂ hnb] at hb
      intro heq
      exact hne (hfixed.distinct a b sa sb ha hb heq)

end Allocated

/-! ### Tables of methods -/

theorem addVars_keeps {t : SlotTable} {next : UInt16} {vars : List (String × Ty)} {name : String}
    {slot : Slot} (h : t.get? name = some slot) : (addVars t next vars).get? name = some slot := by
  induction vars generalizing t next with
  | nil => exact h
  | cons v rest ih =>
    unfold addVars
    split
    · exact ih h
    · next hnew =>
      refine ih ?_
      rw [get?_insert, if_neg]
      · exact h
      · rintro rfl
        simp [contains, h] at hnew

theorem addVars_defined {t : SlotTable} {next : UInt16} {vars : List (String × Ty)} {name : String}
    (h : name ∈ vars.map (·.1)) : ∃ slot, (addVars t next vars).get? name = some slot := by
  induction vars generalizing t next with
  | nil => simp at h
  | cons v rest ih =>
    unfold addVars
    rw [List.map_cons, List.mem_cons] at h
    rcases h with rfl | h
    · split
      · next hold =>
        obtain ⟨slot, hslot⟩ := Option.isSome_iff_exists.mp hold
        exact ⟨slot, addVars_keeps hslot⟩
      · exact ⟨_, addVars_keeps (by rw [get?_insert, if_pos rfl])⟩
    · split
      · exact ih h
      · exact ih h

/-- Every variable and parameter of a method has a slot in its table. -/
theorem forMethod_defined {m : Method} {limit : Option Nat} {table : SlotTable}
    (h : forMethod m limit = .ok table) {name : String}
    (hname : name ∈ m.vars.map (·.1) ∨ name ∈ m.params.map (·.name)) :
    ∃ slot, table.get? name = some slot := by
  cases limit with
  | some limit => exact allocate_defined h hname
  | none =>
    obtain rfl := Except.ok.inj h
    rcases hname with hvar | hparam
    · exact addVars_defined hvar
    · obtain ⟨k, p, -, -, hslot⟩ := fixed_param hparam
      exact ⟨_, addVars_keeps hslot⟩

/-- Only a limit can keep a method from having a table. -/
theorem forMethod_error {m : Method} {limit : Option Nat} {e : Error}
    (h : forMethod m limit = .error e) : ∃ needed most, e = .slotLimit m.name needed most := by
  cases limit with
  | none => cases h
  | some limit =>
    unfold forMethod allocate at h
    simp only at h
    split at h
    · exact ⟨_, _, (Except.error.inj h).symm⟩
    · cases h

end SlotTable

theorem InterferenceGraph.mem_neighbours_build {m : Method} {lv : Liveness} {s : Flat.Step}
    (hs : s ∈ m.steps) {d v : String} (hd : s.instr.defines? = some d) {r : LiveRow}
    (hr : lv.row? s.id = some r) (hv : v ∈ r.liveOut) (hne : v ≠ d)
    (hdnode : d ∈ SlotTable.nodesOf m) (hvnode : v ∈ SlotTable.nodesOf m) :
    v ∈ (build m lv).neighbours d := by
  have hclash : (d, r.liveOut.toList.filter fun x => x != d && (SlotTable.nodesOf m).contains x) ∈
      (build m lv).clashes := by
    refine List.mem_filterMap.mpr ⟨s, hs, ?_⟩
    simp only [hd, hr]
    unfold clashAt
    rw [if_pos (by simpa [SlotTable.nodesOf] using hdnode)]
    rfl
  refine mem_neighbours.mpr ⟨_, hclash, .inl ⟨rfl, ?_⟩⟩
  exact List.mem_filter.mpr ⟨hv, by simpa [hne] using hvnode⟩

end JavaMinus
