import JavaMinus.Proofs.Slots.Simulation

/-!
# How many slots are needed

Greedy colouring takes the least colour that is free among the neighbours. Below the colour of a node
every colour is held by a neighbour, so the colours have no gaps, and there are at most as many as there
are nodes and at most one more than a node has neighbours. A limit on the slots only decides whether a
method has a table; the table is always the same.
-/

namespace JavaMinus

open JavaMinus.Flat (Ty Method Param)

/-! ### Greedy colours -/

namespace InterferenceGraph

variable {g : InterferenceGraph} {coloured : List (String × UInt16)}

theorem mem_of_lt_lowestFree {taken : List UInt16} {c : UInt16} (h : c < lowestFree taken) :
    c ∈ taken := by
  unfold lowestFree at h
  rw [List.find?_map] at h
  cases hf : (List.range (taken.length + 1)).find? ((fun c => !taken.contains c) ∘ UInt16.ofNat) with
  | none =>
    rw [hf] at h
    exact absurd h UInt16.not_lt_zero
  | some k =>
    rw [hf, Option.map_some, Option.getD_some, UInt16.lt_iff_toNat_lt, UInt16.toNat_ofNat'] at h
    have hlt : c.toNat < k := Nat.lt_of_lt_of_le h (Nat.mod_le _ _)
    have hc := (List.find?_range_eq_some.mp hf).2.2 c.toNat hlt
    simpa using hc

/-- Every colour below that of a node is held by a neighbour of the node. -/
def Dense (g : InterferenceGraph) (coloured : List (String × UInt16)) : Prop :=
  ∀ node c, (node, c) ∈ coloured → ∀ d < c, d ∈ g.takenBy coloured node

theorem takenBy_append {more : List (String × UInt16)} {node : String} {c : UInt16}
    (h : c ∈ g.takenBy coloured node) : c ∈ g.takenBy (coloured ++ more) node := by
  obtain ⟨other, hnear, hmem⟩ := mem_takenBy.mp h
  exact mem_takenBy.mpr ⟨other, hnear, List.mem_append_left _ hmem⟩

theorem dense_append (h : g.Dense coloured) (node : String) :
    g.Dense (coloured ++ [(node, lowestFree (g.takenBy coloured node))]) := by
  intro other c hmem d hd
  rw [List.mem_append, List.mem_singleton, Prod.mk.injEq] at hmem
  rcases hmem with hmem | ⟨rfl, rfl⟩
  · exact takenBy_append (h other c hmem d hd)
  · exact takenBy_append (mem_of_lt_lowestFree hd)

theorem colours_dense (g : InterferenceGraph) : g.Dense g.colours := by
  have hempty : g.Dense [] := by
    intro node c hmem
    simp at hmem
  exact List.foldlRecOn g.nodes _ hempty fun coloured h node _ => dense_append h node

/-- Each colour is in use up to that of a node, so there are more nodes than the colour says. -/
theorem Dense.lt_length (h : g.Dense coloured) {node : String} {c : UInt16}
    (hmem : (node, c) ∈ coloured) : c.toNat < coloured.length := by
  rw [← List.length_map (·.2)]
  refine le_length_of_forall_mem c.toNat_lt fun d hd => ?_
  rcases Nat.lt_or_eq_of_le (Nat.le_of_lt_succ hd) with hlt | heq
  · obtain ⟨other, _, hother⟩ := mem_takenBy.mp (h node c hmem d (UInt16.lt_iff_toNat_lt.mpr hlt))
    exact List.mem_map.mpr ⟨(other, d), hother, rfl⟩
  · rw [UInt16.toNat_inj.mp heq]
    exact List.mem_map.mpr ⟨(node, c), hmem, rfl⟩

theorem toNat_add_one_le (c : UInt16) : (c + 1).toNat ≤ c.toNat + 1 := by
  rw [UInt16.toNat_add, UInt16.toNat_one]
  exact Nat.mod_le _ _

/-- If colours are in use, a node has the highest one. -/
theorem exists_highest (h : colourCount coloured ≠ 0) :
    ∃ node c, (node, c) ∈ coloured ∧ colourCount coloured = (c + 1).toNat := by
  rcases foldl_max_mem (coloured.map fun c => (c.2 + 1).toNat) 0 with hzero | hmem
  · exact absurd hzero h
  · obtain ⟨⟨node, c⟩, hmem, heq⟩ := List.mem_map.mp hmem
    exact ⟨node, c, hmem, heq.symm⟩

theorem lt_colourCount {node : String} {c : UInt16} (h : (node, c) ∈ coloured)
    (hc : c.toNat < 65535) : c.toNat < colourCount coloured := by
  have hmem : (c + 1).toNat ∈ coloured.map fun c => (c.2 + 1).toNat :=
    List.mem_map.mpr ⟨(node, c), h, rfl⟩
  have hle := le_foldl_max hmem 0
  rw [SlotTable.toNat_add_one hc] at hle
  exact hle

/-- The colours in use have no gaps. -/
theorem exists_coloured (h : g.Dense coloured) {k : Nat} (hk : k < colourCount coloured) :
    ∃ node c, (node, c) ∈ coloured ∧ c.toNat = k := by
  have hsome : colourCount coloured ≠ 0 := by omega
  obtain ⟨node, top, hmem, heq⟩ := exists_highest hsome
  have htop := toNat_add_one_le top
  rcases Nat.lt_or_ge k top.toNat with hlt | hge
  · have hindex : (UInt16.ofNat k).toNat = k :=
      UInt16.toNat_ofNat_of_lt' (Nat.lt_trans hlt top.toNat_lt)
    have hbelow : UInt16.ofNat k < top := by
      rw [UInt16.lt_iff_toNat_lt, hindex]
      exact hlt
    obtain ⟨other, _, hother⟩ := mem_takenBy.mp (h node top hmem _ hbelow)
    exact ⟨other, _, hother, hindex⟩
  · exact ⟨node, top, hmem, by omega⟩

theorem colourCount_le_length (h : g.Dense coloured) : colourCount coloured ≤ coloured.length := by
  refine foldl_max_le_iff.mpr ⟨Nat.zero_le _, fun x hx => ?_⟩
  obtain ⟨⟨node, c⟩, hmem, rfl⟩ := List.mem_map.mp hx
  exact Nat.le_trans (toNat_add_one_le c) (h.lt_length hmem)

/-- The number of nodes that interfere with a node. -/
def degree (g : InterferenceGraph) (node : String) : Nat :=
  (g.nodes.filter (g.interferes node)).length

def maxDegree (g : InterferenceGraph) : Nat :=
  (g.nodes.map g.degree).foldl max 0

theorem length_takenBy (h : coloured.map (·.1) = g.nodes) (node : String) :
    (g.takenBy coloured node).length = g.degree node := by
  unfold takenBy degree interferes
  rw [← h, List.filter_map, List.length_map, List.length_map]
  rfl

theorem colourCount_le_degree (g : InterferenceGraph) :
    colourCount g.colours ≤ g.maxDegree + 1 := by
  by_cases hzero : colourCount g.colours = 0
  · omega
  · obtain ⟨node, c, hmem, heq⟩ := exists_highest hzero
    have hnames := colours_names g
    have hnode : node ∈ g.nodes := by
      rw [← hnames]
      exact List.mem_map.mpr ⟨(node, c), hmem, rfl⟩
    have hdegree : c.toNat ≤ g.degree node := by
      rw [← length_takenBy hnames]
      exact le_length_of_forall_mem (Nat.le_of_lt c.toNat_lt) fun d hd =>
        colours_dense g node c hmem d (UInt16.lt_iff_toNat_lt.mpr hd)
    have hmax : g.degree node ≤ g.maxDegree :=
      le_foldl_max (List.mem_map.mpr ⟨node, hnode, rfl⟩) 0
    have htop := toNat_add_one_le c
    omega

end InterferenceGraph

namespace SlotTable

/-! ### Types -/

section Types

variable {t : SlotTable} {name : String} {next : UInt16} {ty : Ty}

theorem get?_addVars_of_lookup {vars : List (String × Ty)} (hty : vars.lookup name = some ty)
    (hnew : t.get? name = none) : ∃ index, (addVars t next vars).get? name = some ⟨index, ty⟩ := by
  induction vars generalizing t next with
  | nil => cases hty
  | cons v rest ih =>
    obtain ⟨x, xty⟩ := v
    unfold addVars
    by_cases hx : name = x
    · subst hx
      obtain rfl : xty = ty := by simpa using hty
      have hcontains : t.contains name = false := by
        rw [contains, hnew]
        rfl
      rw [if_neg (by simp [hcontains])]
      exact ⟨next, addVars_keeps (by rw [get?_insert, if_pos rfl])⟩
    · have hrest : rest.lookup name = some ty := by
        have hb : (name == x) = false := by simpa using hx
        rw [List.lookup_cons, hb] at hty
        exact hty
      split
      · exact ih hrest hnew
      · exact ih hrest (by rw [get?_insert, if_neg hx, hnew])

theorem get?_addVars_of_not_mem {vars : List (String × Ty)} (h : name ∉ vars.map (·.1)) :
    (addVars t next vars).get? name = t.get? name := by
  induction vars generalizing t next with
  | nil => rfl
  | cons v rest ih =>
    rw [List.map_cons, List.mem_cons, not_or] at h
    unfold addVars
    split
    · exact ih h.2
    · rw [ih h.2, get?_insert, if_neg h.1]

end Types

/-! ### Shared slots -/

section Shared

variable {m : Method} {lv : Liveness}

/-- Sharing slots changes no type and places the same names. -/
theorem ty_shared (name : String) :
    ((shared m lv).get? name).map (·.ty) = ((oneSlotEach m).get? name).map (·.ty) := by
  by_cases hname : name ∈ nodesOf m
  · obtain ⟨hnew, ty, hty⟩ := lookup_of_mem_nodesOf hname
    obtain ⟨c, hc⟩ := exists_colour lv hname
    have hown : ∃ index, (oneSlotEach m).get? name = some ⟨index, ty⟩ :=
      get?_addVars_of_lookup hty hnew
    obtain ⟨index, hindex⟩ := hown
    rw [get?_shared hc hty, hindex]
    rfl
  · rw [get?_shared_of_not_mem hname]
    cases hfixed : (fixed m).1.get? name with
    | some slot => rw [oneSlotEach, addVars_keeps hfixed]
    | none =>
      have hvar : name ∉ m.vars.map (·.1) := fun h => hname (mem_nodesOf.mpr ⟨h, hfixed⟩)
      rw [oneSlotEach, get?_addVars_of_not_mem hvar, hfixed]

theorem colour_lt_length {name : String} {c : UInt16}
    (h : (name, c) ∈ (InterferenceGraph.build m lv).colours) : c.toNat < (nodesOf m).length := by
  rw [← (colours_build m lv).1, List.length_map]
  exact (InterferenceGraph.colours_dense _).lt_length h

theorem needed_le_length : needed m lv ≤ (nodesOf m).length := by
  rw [← (colours_build m lv).1, List.length_map]
  exact InterferenceGraph.colourCount_le_length (InterferenceGraph.colours_dense _)

/-- A variable is found as far behind the first free slot as its colour says. -/
theorem toNat_shared (hfit : m.params.length + (nodesOf m).length ≤ 65535) {name : String}
    {c : UInt16} (h : (name, c) ∈ (InterferenceGraph.build m lv).colours) :
    ((fixed m).2 + c).toNat = (fixed m).2.toNat + c.toNat := by
  have hlt := colour_lt_length h
  have hbase : base m ≤ 1 := by unfold base; split <;> omega
  rw [UInt16.toNat_add, fixed_next, UInt16.toNat_ofNat', fixedCount]
  omega

theorem index_shared_iff (hfit : m.params.length + (nodesOf m).length ≤ 65535) (k : Nat) :
    (∃ name ∈ nodesOf m, ((shared m lv).get? name).map (·.index.toNat) = some k) ↔
      (fixed m).2.toNat ≤ k ∧ k < (fixed m).2.toNat + needed m lv := by
  constructor
  · rintro ⟨name, hname, hk⟩
    obtain ⟨_, ty, hty⟩ := lookup_of_mem_nodesOf hname
    obtain ⟨c, hc⟩ := exists_colour lv hname
    rw [get?_shared hc hty, Option.map_some, toNat_shared hfit hc] at hk
    obtain rfl := Option.some.inj hk
    have hlength := colour_lt_length hc
    have hlt : c.toNat < needed m lv := InterferenceGraph.lt_colourCount hc (by omega)
    omega
  · rintro ⟨hge, hlt⟩
    obtain ⟨j, rfl⟩ := Nat.exists_eq_add_of_le hge
    have hlt' : j < needed m lv := by omega
    obtain ⟨name, c, hc, rfl⟩ :=
      InterferenceGraph.exists_coloured (InterferenceGraph.colours_dense _) hlt'
    have hname : name ∈ nodesOf m := by
      rw [← (colours_build m lv).1]
      exact List.mem_map.mpr ⟨(name, c), hc, rfl⟩
    obtain ⟨_, ty, hty⟩ := lookup_of_mem_nodesOf hname
    exact ⟨name, hname, by rw [get?_shared hc hty, Option.map_some, toNat_shared hfit hc]⟩

/-- Every slot of the shared table is also one of the table without sharing. -/
theorem localsLimit_shared_le : (shared m lv).localsLimit ≤ (oneSlotEach m).localsLimit := by
  rw [localsLimit_shared, localsLimit_oneSlotEach]
  refine foldl_max_le_iff.mpr ⟨(foldl_max_le_iff.mp (Nat.le_refl _)).1, fun x hx => ?_⟩
  obtain ⟨⟨name, c⟩, hc, rfl⟩ := List.mem_map.mp hx
  refine le_foldl_max (List.mem_map.mpr ⟨c.toNat, List.mem_range.mpr (colour_lt_length hc), ?_⟩) _
  rw [UInt16.ofNat_toNat]

theorem toNat_next {c : UInt16} (h : fixedCount m + c.toNat < 65535) :
    ((fixed m).2 + c + 1).toNat = fixedCount m + (c.toNat + 1) := by
  rw [fixed_next, UInt16.toNat_add, UInt16.toNat_add, UInt16.toNat_ofNat', UInt16.toNat_one]
  omega

theorem localsLimit_shared_eq (hfit : fixedCount m + (nodesOf m).length ≤ 65535) :
    (shared m lv).localsLimit = fixedCount m + needed m lv := by
  have hslot : ∀ c ∈ (InterferenceGraph.build m lv).colours,
      ((fixed m).2 + c.2 + 1).toNat = fixedCount m + (c.2 + 1).toNat := by
    rintro ⟨name, c⟩ hc
    have hlt := colour_lt_length hc
    simp only
    rw [toNat_next (by omega), toNat_add_one (by omega)]
  rw [localsLimit_shared, localsLimit_fixed (by omega), List.map_congr_left hslot]
  exact foldl_max_add _ (InterferenceGraph.build m lv).colours (fun c => (c.2 + 1).toNat) 0

theorem localsLimit_oneSlotEach_eq (hfit : fixedCount m + (nodesOf m).length ≤ 65535) :
    (oneSlotEach m).localsLimit = fixedCount m + (nodesOf m).length := by
  have hslot : ∀ k ∈ List.range (nodesOf m).length,
      ((fixed m).2 + .ofNat k + 1).toNat = fixedCount m + (k + 1) := by
    intro k hk
    have hlt := List.mem_range.mp hk
    have hindex : (UInt16.ofNat k).toNat = k := UInt16.toNat_ofNat_of_lt' (show k < 65536 by omega)
    rw [toNat_next (by rw [hindex]; omega), hindex]
  rw [localsLimit_oneSlotEach, localsLimit_fixed (by omega), List.map_congr_left hslot]
  refine (foldl_max_add _ _ (fun k => k + 1) 0).trans (congrArg _ ?_)
  generalize (nodesOf m).length = n
  induction n with
  | zero => rfl
  | succ n ih =>
    rw [List.range_succ, List.map_append, List.foldl_append, ih]
    exact Nat.max_eq_right (Nat.le_succ n)

end Shared

/-- With `needed` slots behind the fixed ones, `t` keeps what `t₀` keeps in slots of their own. -/
structure Compact (m : Method) (t₀ t : SlotTable) (needed : Nat) : Prop where
  types : ∀ name, (t.get? name).map (·.ty) = (t₀.get? name).map (·.ty)
  fixed : ∀ name slot, (SlotTable.fixed m).1.get? name = some slot →
    t.get? name = some slot ∧ t₀.get? name = some slot
  /-- The slots of the other variables are those from the first free one on. -/
  slots : ∀ k, (∃ name ∈ nodesOf m, (t.get? name).map (·.index.toNat) = some k) ↔
    (SlotTable.fixed m).2.toNat ≤ k ∧ k < (SlotTable.fixed m).2.toNat + needed
  count : needed ≤ (nodesOf m).length
  degree : needed ≤ (InterferenceGraph.build m (Liveness.analyze m)).maxDegree + 1
  /-- The number behind the last slot may be the first that wraps around. -/
  limits : fixedCount m + (nodesOf m).length ≤ 65535 →
    t.localsLimit = fixedCount m + needed ∧ t₀.localsLimit = fixedCount m + (nodesOf m).length

/-- A limit never changes the table of a method, and it is exceeded exactly if more slots are needed. -/
theorem forMethod_limit (m : Method) (hfit : m.params.length + (nodesOf m).length ≤ 65535) :
    ∃ t₀ t needed, forMethod m none = .ok t₀ ∧ forMethod m (some 0) = .ok t ∧
      Compact m t₀ t needed ∧ t.localsLimit ≤ t₀.localsLimit ∧
      ∀ n, 0 < n → forMethod m (some n) =
        if needed ≤ n then .ok t else .error (.slotLimit m.name needed n) := by
  have hzero : forMethod m (some 0) = .ok (shared m (Liveness.analyze m)) := allocate_eq m _ 0
  refine ⟨oneSlotEach m, shared m (Liveness.analyze m), needed m (Liveness.analyze m), rfl, hzero,
    ?_, localsLimit_shared_le, ?_⟩
  · exact {
      types := ty_shared
      fixed := fun name slot h => ⟨forMethod_fixed hzero h, addVars_keeps h⟩
      slots := index_shared_iff hfit
      count := needed_le_length
      degree := InterferenceGraph.colourCount_le_degree _
      limits := fun h => ⟨localsLimit_shared_eq h, localsLimit_oneSlotEach_eq h⟩ }
  · intro n hn
    rw [forMethod, allocate_eq]
    by_cases hle : needed m (Liveness.analyze m) ≤ n
    · rw [if_pos hle, if_neg (by omega)]
    · rw [if_neg hle, if_pos ⟨hn, by omega⟩]

/-- Two variables need one slot. -/
theorem forMethod_limit_share :
    shareMethod.params.length + (nodesOf shareMethod).length ≤ 65535 ∧
      ∃ t₀ needed, forMethod shareMethod none = .ok t₀ ∧ Compact shareMethod t₀ shareTable needed ∧
        shareTable.localsLimit < t₀.localsLimit ∧
        ∀ n, 0 < n → forMethod shareMethod (some n) =
          if needed ≤ n then .ok shareTable else .error (.slotLimit "share" needed n) := by
  have hfit : shareMethod.params.length + (nodesOf shareMethod).length ≤ 65535 := by decide +kernel
  have htable : forMethod shareMethod (some 0) = .ok shareTable := by decide +kernel
  have hlimit : (oneSlotEach shareMethod).localsLimit = 4 := by decide +kernel
  obtain ⟨t₀, t, needed, hnone, hzero, hcompact, -, hn⟩ := forMethod_limit shareMethod hfit
  obtain rfl := Except.ok.inj (hzero.symm.trans htable)
  obtain rfl := Except.ok.inj hnone
  exact ⟨hfit, _, needed, rfl, hcompact, by rw [hlimit]; decide, hn⟩

end SlotTable

end JavaMinus
