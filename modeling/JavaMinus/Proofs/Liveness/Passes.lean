import JavaMinus.Proofs.Liveness.Paths
import Mathlib.Logic.Function.Iterate

/-!
# How many sweeps the analysis takes

A sweep goes from the last instruction to the first and uses each new set at once. So it carries a live
name back over all edges that lead forward in the list; an edge that leads back, or to the instruction
itself, has to wait for the next sweep. A path to a read need not pass an instruction twice, so it has
fewer edges than the method has instructions. What is live behind an instruction may need one edge more,
if the path ends where it began; but then not all of its edges lead back, unless it is a single edge.
-/

namespace JavaMinus

open JavaMinus.Flat (Step Method)

/-! ### Paths over positions -/

/-- Control may go from position `i` to position `j`. -/
def Edge (steps : List Step) (i j : Nat) : Prop :=
  ∃ s t, steps[i]? = some s ∧ steps[j]? = some t ∧ t.id ∈ s.succs

/-- The instruction at position `i` does not define the name. -/
def Clear (steps : List Step) (v : String) (i : Nat) : Prop :=
  ∃ s, steps[i]? = some s ∧ s.instr.defines? ≠ some v

/-- Positions that control can pass one after the other. The last one reads the name, and none before
it defines it. -/
inductive ReadPath (steps : List Step) (v : String) : List Nat → Prop
  | read {i : Nat} {s : Step} : steps[i]? = some s → v ∈ s.instr.reads → ReadPath steps v [i]
  | pass {i j : Nat} {rest : List Nat} : Edge steps i j → Clear steps v i →
      ReadPath steps v (j :: rest) → ReadPath steps v (i :: j :: rest)

section Paths

variable {steps : List Step} {v : String} {i : Nat} {front rest places : List Nat}

theorem exists_readPath (hids : (steps.map (·.id)).Nodup) {s : Step} (hi : steps[i]? = some s)
    (h : LiveFrom steps s.id v) : ∃ rest, ReadPath steps v (i :: rest) := by
  generalize hid : s.id = id at h
  induction h generalizing s i with
  | read ht hread =>
    obtain rfl := List.inj_on_of_nodup_map hids (List.mem_of_getElem? hi) ht hid
    exact ⟨[], .read hi hread⟩
  | pass ht hdef hsucc hlive ih =>
    obtain rfl := List.inj_on_of_nodup_map hids (List.mem_of_getElem? hi) ht hid
    obtain ⟨u, hu, rfl⟩ := hlive.exists_step
    obtain ⟨j, hj⟩ := List.mem_iff_getElem?.mp hu
    obtain ⟨rest, hrest⟩ := ih hj rfl
    exact ⟨j :: rest, .pass ⟨s, u, hi, hj, hsucc⟩ ⟨s, hi, hdef⟩ hrest⟩

theorem ReadPath.suffix (h : ReadPath steps v (front ++ i :: rest)) :
    ReadPath steps v (i :: rest) := by
  induction front with
  | nil => exact h
  | cons k front ih =>
    apply ih
    cases front with
    | nil =>
      cases h with
      | pass _ _ h => exact h
    | cons l front =>
      cases h with
      | pass _ _ h => exact h

theorem ReadPath.lt_length (h : ReadPath steps v places) : ∀ k ∈ places, k < steps.length := by
  induction h with
  | read hi _ =>
    intro k hk
    rw [List.mem_singleton.mp hk]
    exact (List.getElem?_eq_some_iff.mp hi).1
  | pass _ hclear _ ih =>
    intro k hk
    rcases List.mem_cons.mp hk with rfl | hk
    · obtain ⟨s, hs, _⟩ := hclear
      exact (List.getElem?_eq_some_iff.mp hs).1
    · exact ih k hk

/-- A path that comes back to a position can go on from there at once. -/
theorem ReadPath.exists_nodup (h : ReadPath steps v (i :: rest)) :
    ∃ rest', ReadPath steps v (i :: rest') ∧ (i :: rest').Nodup := by
  generalize hplaces : i :: rest = places at h
  induction h generalizing i rest with
  | @read k s hs hread =>
    obtain ⟨rfl, rfl⟩ := List.cons.inj hplaces
    exact ⟨[], .read hs hread, List.nodup_singleton i⟩
  | @pass _ j _ hedge hclear _ ih =>
    obtain ⟨rfl, rfl⟩ := List.cons.inj hplaces
    obtain ⟨rest', hpath, hnodup⟩ := ih rfl
    by_cases hmem : i ∈ j :: rest'
    · obtain ⟨front, back, heq⟩ := List.append_of_mem hmem
      rw [heq] at hpath hnodup
      exact ⟨back, hpath.suffix, hnodup.of_append_right⟩
    · exact ⟨_, .pass hedge hclear hpath, List.nodup_cons.mpr ⟨hmem, hnodup⟩⟩

theorem length_le_of_nodup (hlt : ∀ k ∈ places, k < steps.length) (hnodup : places.Nodup) :
    places.length ≤ steps.length := by
  have hsub : places ⊆ List.range steps.length := fun k hk => List.mem_range.mpr (hlt k hk)
  have hle := (hnodup.subperm hsub).length_le
  rwa [List.length_range] at hle

/-- A path through as many positions as there are goes through all of them. -/
theorem mem_of_nodup_of_length (hlt : ∀ k ∈ places, k < steps.length) (hnodup : places.Nodup)
    (hlen : steps.length ≤ places.length) (hi : i < steps.length) : i ∈ places := by
  have hsub : places ⊆ List.range steps.length := fun k hk => List.mem_range.mpr (hlt k hk)
  have hperm := (hnodup.subperm hsub).perm_of_length_le (by rwa [List.length_range])
  exact hperm.mem_iff.mpr (List.mem_range.mpr hi)

end Paths

/-! ### What a number of sweeps finds -/

/-- At the latest sweep number `k` finds that the name is live at position `i`. -/
inductive Found (steps : List Step) (v : String) : Nat → Nat → Prop
  | read {k i : Nat} {s : Step} : steps[i]? = some s → v ∈ s.instr.reads → Found steps v (k + 1) i
  | ahead {k i j : Nat} : Edge steps i j → Clear steps v i → i < j → Found steps v k j →
      Found steps v k i
  | back {k i j : Nat} : Edge steps i j → Clear steps v i → Found steps v k j →
      Found steps v (k + 1) i

/-- At the latest sweep number `k` finds that the name is live behind position `i`. -/
def FoundBehind (steps : List Step) (v : String) (k i : Nat) : Prop :=
  ∃ j, Edge steps i j ∧ ((i < j ∧ Found steps v k j) ∨ Found steps v (k - 1) j)

section Counting

variable {steps : List Step} {v : String} {i j k : Nat} {rest : List Nat}

theorem not_found_zero : ¬ Found steps v 0 i := by
  intro h
  generalize hk : 0 = k at h
  induction h with
  | read | back => omega
  | ahead _ _ _ _ ih => exact ih hk

theorem Found.mono (h : Found steps v k i) {k' : Nat} (hk : k ≤ k') : Found steps v k' i := by
  induction h generalizing k' with
  | read hs hread =>
    obtain ⟨l, rfl⟩ : ∃ l, k' = l + 1 := ⟨k' - 1, by omega⟩
    exact .read hs hread
  | ahead hedge hclear hlt _ ih => exact .ahead hedge hclear hlt (ih hk)
  | back hedge hclear _ ih =>
    obtain ⟨l, rfl⟩ : ∃ l, k' = l + 1 := ⟨k' - 1, by omega⟩
    exact .back hedge hclear (ih (by omega))

/-- Every edge of a path costs a sweep at most. -/
theorem ReadPath.found (h : ReadPath steps v (i :: rest)) : Found steps v (rest.length + 1) i := by
  generalize hplaces : i :: rest = places at h
  induction h generalizing i rest with
  | read hs hread =>
    obtain ⟨rfl, rfl⟩ := List.cons.inj hplaces
    exact .read hs hread
  | pass hedge hclear _ ih =>
    obtain ⟨rfl, rfl⟩ := List.cons.inj hplaces
    exact .back hedge hclear (ih rfl)

/-- A path that ends behind the position where it starts has an edge that leads forward. -/
theorem ReadPath.found_of_lt (h : ReadPath steps v (i :: rest)) (hlast : ∃ l ∈ rest.getLast?, i < l) :
    Found steps v rest.length i := by
  generalize hplaces : i :: rest = places at h
  induction h generalizing i rest with
  | read hs hread =>
    obtain ⟨rfl, rfl⟩ := List.cons.inj hplaces
    simp at hlast
  | @pass i' j rest' hedge hclear hpath ih =>
    obtain ⟨rfl, rfl⟩ := List.cons.inj hplaces
    obtain ⟨l, hl, hlt⟩ := hlast
    by_cases hforward : i < j
    · exact .ahead hedge hclear hforward hpath.found
    · cases rest' with
      | nil =>
        obtain rfl : j = l := by simpa using hl
        exact absurd hlt hforward
      | cons j' rest' =>
        exact .back hedge hclear (ih ⟨l, by simpa using hl, by omega⟩ rfl)

/-- As many sweeps as there are instructions find all names that are live before one. -/
theorem found_of_liveFrom (hids : (steps.map (·.id)).Nodup) {s : Step} (hi : steps[i]? = some s)
    (h : LiveFrom steps s.id v) : Found steps v steps.length i := by
  obtain ⟨rest, hpath⟩ := exists_readPath hids hi h
  obtain ⟨rest', hpath', hnodup⟩ := hpath.exists_nodup
  have hlen := length_le_of_nodup hpath'.lt_length hnodup
  rw [List.length_cons] at hlen
  exact hpath'.found.mono hlen

/-- They also find all that are live behind one, if there is more than one instruction. -/
theorem foundBehind_of_edge (hids : (steps.map (·.id)).Nodup) (hone : steps.length ≠ 1)
    (hedge : Edge steps i j) {t : Step} (hj : steps[j]? = some t) (h : LiveFrom steps t.id v) :
    FoundBehind steps v steps.length i := by
  obtain ⟨rest₀, hpath₀⟩ := exists_readPath hids hj h
  obtain ⟨rest, hpath, hnodup⟩ := hpath₀.exists_nodup
  have hlen := length_le_of_nodup hpath.lt_length hnodup
  rw [List.length_cons] at hlen
  have hi : i < steps.length := by
    obtain ⟨s, _, hs, _, _⟩ := hedge
    exact (List.getElem?_eq_some_iff.mp hs).1
  by_cases hshort : rest.length + 1 < steps.length
  · exact ⟨j, hedge, .inr (hpath.found.mono (by omega))⟩
  · -- the path goes through all positions, so it comes back to this one
    have hmem := mem_of_nodup_of_length hpath.lt_length hnodup (by rw [List.length_cons]; omega) hi
    obtain ⟨front, back, heq⟩ := List.append_of_mem hmem
    have hcount := congrArg List.length heq
    simp only [List.length_cons, List.length_append] at hcount
    cases back with
    | cons j' back =>
      -- it goes on from here, and what is left of it is shorter
      rw [heq] at hpath
      cases hpath.suffix with
      | pass hedge' _ hpath' =>
        rw [List.length_cons] at hcount
        exact ⟨j', hedge', .inr (hpath'.found.mono (by omega))⟩
    | nil =>
      -- it ends here
      by_cases hforward : i < j
      · exact ⟨j, hedge, .inl ⟨hforward, hpath.found.mono hlen⟩⟩
      · have hlast : i ∈ rest.getLast? := by
          cases front with
          | nil =>
            simp only [List.length_nil] at hcount
            omega
          | cons _ front =>
            obtain ⟨_, rfl⟩ := List.cons.inj heq
            simp
        have hne : j ≠ i := by
          rintro rfl
          exact (List.nodup_cons.mp hnodup).1 (List.mem_of_getLast? hlast)
        have hfound := hpath.found_of_lt ⟨i, hlast, by omega⟩
        exact ⟨j, hedge, .inr (hfound.mono (by omega))⟩

end Counting

namespace LiveRow

/-! ### Rows on the way -/

/-- Rows that sweeps have made of the starting rows. -/
structure Underway (steps : List Step) (rows : List LiveRow) : Prop where
  grown : AllGrow (steps.map start) rows
  rising : Rising steps rows
  justified : AllJustified steps rows

section Rows

variable {steps part : List Step} {rows : List LiveRow} {s : Step}

theorem underway_start (steps : List Step) : Underway steps (steps.map start) :=
  ⟨.refl _, rising_start steps, allJustified_start steps⟩

theorem Underway.sweep (hids : (steps.map (·.id)).Nodup) (h : Underway steps rows)
    (hpart : ∀ s ∈ part, s ∈ steps) : Underway steps (sweep part rows) := by
  obtain ⟨hrise, hgrow⟩ := sweep_rising hids hpart h.rising
  exact ⟨h.grown.trans hgrow, hrise, h.justified.sweep hids hpart⟩

theorem Underway.row (hids : (steps.map (·.id)).Nodup) (h : Underway steps rows) (hs : s ∈ steps) :
    ∃ r, find? rows s.id = some r ∧ Justified steps s r := by
  rcases h.grown.find? s.id with ⟨hnone, _⟩ | ⟨_, r, _, hr, _⟩
  · have hne := List.find?_eq_none.mp hnone _ (List.mem_map_of_mem (f := start) hs)
    simp [start] at hne
  · have hid : r.id = s.id := by simpa using List.find?_some hr
    obtain ⟨t, ht, hjust⟩ := h.justified r (List.mem_of_find?_eq_some hr)
    obtain rfl := List.inj_on_of_nodup_map hids ht hs (hjust.id.symm.trans hid)
    exact ⟨r, hr, hjust⟩

theorem find?_update (s : Step) (rows : List LiveRow) (id : Nat) :
    find? (update s rows) id = (find? rows id).map fun r =>
      if r.id = s.id then
        { r with liveIn := r.transfer (outAt rows s.succs), liveOut := outAt rows s.succs }
      else r := by
  unfold find? update
  rw [List.find?_map]
  congr 2
  funext r
  simp only [Function.comp_apply]
  split
  · rfl
  · rfl

/-! ### What sweeps reach -/

/-- At position `i` the rows have all that `k` sweeps are to find there. -/
def Reached (steps : List Step) (rows : List LiveRow) (k i : Nat) : Prop :=
  ∀ s, steps[i]? = some s → ∃ r, find? rows s.id = some r ∧
    (∀ v, Found steps v k i → v ∈ r.liveIn) ∧ ∀ v, FoundBehind steps v k i → v ∈ r.liveOut

theorem Reached.grow {rows' : List LiveRow} {k i : Nat} (h : Reached steps rows k i)
    (hgrow : AllGrow rows rows') : Reached steps rows' k i := by
  intro s hs
  obtain ⟨r, hr, hin, hout⟩ := h s hs
  rcases hgrow.find? s.id with ⟨hnone, _⟩ | ⟨r₀, r', hr₀, hr', hgrows⟩
  · exact absurd (hnone.symm.trans hr) (by simp)
  · obtain rfl := Option.some.inj (hr.symm.trans hr₀)
    exact ⟨r', hr', fun v hv => hgrows.liveIn v (hin v hv), fun v hv => hgrows.liveOut v (hout v hv)⟩

theorem Reached.liveInAt {k i : Nat} (h : Reached steps rows k i) (hs : steps[i]? = some s)
    {v : String} (hv : Found steps v k i) : v ∈ liveInAt rows s.id := by
  obtain ⟨r, hr, hin, _⟩ := h s hs
  unfold LiveRow.liveInAt
  rw [hr]
  exact hin v hv

/-- An update finds what one more sweep is to find, if the sweep has done so for all later positions and
the sweeps before it for all positions. -/
theorem reached_update (hids : (steps.map (·.id)).Nodup) (h : Underway steps rows) {k i : Nat}
    (hi : steps[i]? = some s) (hlater : ∀ j, i < j → Reached steps rows (k + 1) j)
    (hbefore : ∀ j t v, steps[j]? = some t → Found steps v k j → v ∈ liveInAt rows t.id) :
    Reached steps (update s rows) (k + 1) i := by
  intro s' hs'
  obtain rfl := Option.some.inj (hi.symm.trans hs')
  obtain ⟨r, hr, hjust⟩ := h.row hids (List.mem_of_getElem? hi)
  have hout : ∀ v, FoundBehind steps v (k + 1) i → v ∈ outAt rows s.succs := by
    intro v hv
    obtain ⟨j, ⟨s', t, hs', ht, hsucc⟩, hfound⟩ := hv
    obtain rfl := Option.some.inj (hi.symm.trans hs')
    refine mem_outAt.mpr ⟨t.id, hsucc, ?_⟩
    rcases hfound with ⟨hlt, hfound⟩ | hfound
    · exact (hlater j hlt).liveInAt ht hfound
    · exact hbefore j t v ht hfound
  have hclear : ∀ v, Clear steps v i → ¬ v ∈ r.defs := by
    intro v hv
    obtain ⟨s', hs', hdef⟩ := hv
    obtain rfl := Option.some.inj (hi.symm.trans hs')
    rw [hjust.defs, NameSet.mem_ofList, Option.mem_toList]
    exact hdef
  refine ⟨{ r with liveIn := r.transfer (outAt rows s.succs), liveOut := outAt rows s.succs }, ?_,
    ?_, hout⟩
  · rw [find?_update, hr, Option.map_some, if_pos hjust.id]
  · intro v hv
    rw [mem_transfer]
    cases hv with
    | read hs' hread =>
      obtain rfl := Option.some.inj (hi.symm.trans hs')
      rw [hjust.uses, NameSet.mem_ofList]
      exact .inl hread
    | ahead hedge hv hlt hfound => exact .inr ⟨hout v ⟨_, hedge, .inl ⟨hlt, hfound⟩⟩, hclear v hv⟩
    | back hedge hv hfound => exact .inr ⟨hout v ⟨_, hedge, .inr hfound⟩, hclear v hv⟩

/-- A sweep goes from the end of the list to its front, and each update keeps what the others found. -/
theorem reached_sweep (hids : (steps.map (·.id)).Nodup) (h : Underway steps rows) {k : Nat}
    (hbefore : ∀ j t v, steps[j]? = some t → Found steps v k j → v ∈ liveInAt rows t.id)
    (front : List Step) (hsteps : steps = front ++ part) :
    ∀ j, front.length ≤ j → Reached steps (sweep part rows) (k + 1) j := by
  induction part generalizing front with
  | nil =>
    intro j hj s hs
    have hlt := (List.getElem?_eq_some_iff.mp hs).1
    rw [hsteps, List.append_nil] at hlt
    omega
  | cons s rest ih =>
    have hlater := ih (front ++ [s]) (by rw [hsteps, List.append_assoc]; rfl)
    have hrest : ∀ t ∈ rest, t ∈ steps := by
      intro t ht
      rw [hsteps]
      exact List.mem_append_right _ (List.mem_cons_of_mem s ht)
    have hs : s ∈ steps := by
      rw [hsteps]
      exact List.mem_append_right _ List.mem_cons_self
    have hunder := h.sweep hids hrest
    have hgrow := (sweep_rising hids hrest h.rising).2
    intro j hj
    by_cases heq : j = front.length
    · subst heq
      refine reached_update hids hunder (by rw [hsteps]; simp) ?_ ?_
      · intro l hl
        exact hlater l (by rw [List.length_append, List.length_singleton]; omega)
      · intro l t v ht hfound
        exact liveInAt_subset hgrow t.id v (hbefore l t v ht hfound)
    · have hreached := hlater j (by rw [List.length_append, List.length_singleton]; omega)
      exact hreached.grow (grows_update hs hunder.rising)

theorem reached_iterate (hids : (steps.map (·.id)).Nodup) (k : Nat) :
    Underway steps ((LiveRow.sweep steps)^[k] (steps.map start)) ∧
      ∀ i, Reached steps ((LiveRow.sweep steps)^[k] (steps.map start)) k i := by
  induction k with
  | zero =>
    refine ⟨underway_start steps, ?_⟩
    intro i s hs
    obtain ⟨r, hr, _⟩ := (underway_start steps).row hids (List.mem_of_getElem? hs)
    refine ⟨r, hr, fun v hv => absurd hv not_found_zero, ?_⟩
    intro v hv
    obtain ⟨j, _, ⟨_, hfound⟩ | hfound⟩ := hv
    · exact absurd hfound not_found_zero
    · exact absurd hfound not_found_zero
  | succ k ih =>
    obtain ⟨hunder, hreached⟩ := ih
    rw [Function.iterate_succ_apply']
    refine ⟨hunder.sweep hids fun s hs => hs, fun i => ?_⟩
    refine reached_sweep hids hunder ?_ [] rfl i (Nat.zero_le i)
    intro j t v ht hfound
    exact (hreached j).liveInAt ht hfound

/-! ### When nothing is left to find -/

theorem AllGrow.map_id {rows' : List LiveRow} (h : AllGrow rows rows') :
    rows'.map (·.id) = rows.map (·.id) := by
  induction h with
  | nil => rfl
  | cons hr _ ih => rw [List.map_cons, List.map_cons, hr.id, ih]

theorem Underway.find?_of_mem (hids : (steps.map (·.id)).Nodup) (h : Underway steps rows)
    {r : LiveRow} (hr : r ∈ rows) (hs : s ∈ steps) (hid : r.id = s.id) : find? rows s.id = some r := by
  have hrows : (rows.map (·.id)).Nodup := by
    rw [h.grown.map_id, List.map_map]
    exact hids
  obtain ⟨r', hr', hjust⟩ := h.row hids hs
  obtain rfl := List.inj_on_of_nodup_map hrows hr (List.mem_of_find?_eq_some hr') (hid.trans hjust.id.symm)
  exact hr'

/-- A row that has every live name is not changed by its update. -/
theorem update_eq_of_live (hids : (steps.map (·.id)).Nodup) (h : Underway steps rows) (hs : s ∈ steps)
    {r : LiveRow} (hr : find? rows s.id = some r)
    (hin : ∀ v, LiveFrom steps s.id v → v ∈ r.liveIn)
    (hout : ∀ id ∈ s.succs, ∀ v, LiveFrom steps id v → v ∈ r.liveOut) : update s rows = rows := by
  refine (List.map_congr_left ?_).trans (List.map_id rows)
  intro r' hr'
  by_cases hid : r'.id = s.id
  · obtain rfl := Option.some.inj ((h.find?_of_mem hids hr' hs hid).symm.trans hr)
    obtain ⟨hrout, hrin⟩ := h.rising s hs r' hr' hid
    have hlive : outAt rows s.succs ⊆ r'.liveOut := by
      intro v hv
      obtain ⟨id, hsucc, hv⟩ := mem_outAt.mp hv
      exact hout id hsucc v (h.justified.liveInAt hv)
    have htransfer : r'.transfer (outAt rows s.succs) ⊆ r'.liveIn := by
      intro v hv
      obtain ⟨_, hr'', hjust⟩ := h.row hids hs
      obtain rfl := Option.some.inj (hr.symm.trans hr'')
      apply hin
      rcases mem_transfer.mp hv with hv | ⟨hv, hdef⟩
      · rw [hjust.uses, NameSet.mem_ofList] at hv
        exact .read hs hv
      · obtain ⟨id, hsucc, hv⟩ := mem_outAt.mp hv
        rw [hjust.defs, NameSet.mem_ofList, Option.mem_toList] at hdef
        exact .pass hs hdef hsucc (h.justified.liveInAt hv)
    rw [if_pos hid, NameSet.subset_antisymm htransfer hrin, NameSet.subset_antisymm hlive hrout]
    rfl
  · rw [if_neg hid]
    rfl

theorem sweep_eq_of_update_eq (h : ∀ s ∈ part, update s rows = rows) : LiveRow.sweep part rows = rows := by
  induction part with
  | nil => rfl
  | cons s rest ih =>
    have hrest := ih fun t ht => h t (List.mem_cons_of_mem s ht)
    exact (congrArg (update s) hrest).trans (h s List.mem_cons_self)

/-- If `k` sweeps find all live names, there is nothing to change behind them. -/
theorem sweep_iterate_eq (hids : (steps.map (·.id)).Nodup) {k : Nat}
    (hin : ∀ i s v, steps[i]? = some s → LiveFrom steps s.id v → Found steps v k i)
    (hbehind : ∀ i j t v, Edge steps i j → steps[j]? = some t → LiveFrom steps t.id v →
      FoundBehind steps v k i) :
    LiveRow.sweep steps ((LiveRow.sweep steps)^[k] (steps.map start)) =
      (LiveRow.sweep steps)^[k] (steps.map start) := by
  obtain ⟨hunder, hreached⟩ := reached_iterate hids k
  apply sweep_eq_of_update_eq
  intro s hs
  obtain ⟨i, hi⟩ := List.mem_iff_getElem?.mp hs
  obtain ⟨r, hr, hfin, hfout⟩ := hreached i s hi
  refine update_eq_of_live hids hunder hs hr (fun v hv => hfin v (hin i s v hi hv)) ?_
  intro id hsucc v hv
  obtain ⟨t, ht, rfl⟩ := hv.exists_step
  obtain ⟨j, hj⟩ := List.mem_iff_getElem?.mp ht
  exact hfout v (hbehind i j t v ⟨s, t, hi, hj, hsucc⟩ hj hv)

/-- The sweeps end with the first that changes nothing. -/
theorem Settles.le_of_iterate {out : List LiveRow} {n : Nat} (h : Settles steps rows n out) {k : Nat}
    (hfix : LiveRow.sweep steps ((LiveRow.sweep steps)^[k] rows) = (LiveRow.sweep steps)^[k] rows) :
    n ≤ k + 1 := by
  induction h generalizing k with
  | last _ => omega
  | again hne _ ih =>
    cases k with
    | zero => exact absurd hfix hne
    | succ k =>
      rw [Function.iterate_succ_apply] at hfix
      have := ih hfix
      omega

end Rows

end LiveRow

namespace Liveness

/-- The analysis ends with a sweep that changes nothing. It makes at most one sweep more than there are
instructions, or two more if there is a single one. -/
theorem analyze_passes_le (m : Method) (hids : (m.steps.map (·.id)).Nodup) :
    LiveRow.Settles m.steps (m.steps.map LiveRow.start) (analyze m).passes (analyze m).rows ∧
      (analyze m).passes ≤ m.steps.length + 2 ∧
      (m.steps.length ≠ 1 → (analyze m).passes ≤ m.steps.length + 1) := by
  have hsettles := analyze_settles hids
  have hfound (i : Nat) (s : Step) (v : String) (hi : m.steps[i]? = some s)
      (hv : LiveFrom m.steps s.id v) : Found m.steps v m.steps.length i := found_of_liveFrom hids hi hv
  refine ⟨hsettles, ?_, ?_⟩
  · refine hsettles.le_of_iterate (LiveRow.sweep_iterate_eq hids ?_ ?_)
    · intro i s v hi hv
      exact (hfound i s v hi hv).mono (Nat.le_succ _)
    · -- one sweep more carries what is live before an instruction behind those that lead to it
      intro i j t v hedge hj hv
      exact ⟨j, hedge, .inr (hfound j t v hj hv)⟩
  · intro hone
    refine hsettles.le_of_iterate (LiveRow.sweep_iterate_eq hids hfound ?_)
    intro i j t v hedge hj hv
    exact foundBehind_of_edge hids hone hedge hj hv

/-- Control goes from the last step to the first over edges that lead back, and from there to the last
one again. -/
def descentMethod : Method where
  name := "descent"
  returnType := .void
  steps := [
    { id := 7, succs := [9, 4, 9], instr := .single (.var "x" .int) },
    { id := 2, succs := [7], instr := .nop },
    { id := 9, succs := [2], instr := .nop }]

/-- Each edge that leads back takes a sweep. -/
theorem analyze_passes_le_descent :
    (descentMethod.steps.map (·.id)).Nodup ∧
      (analyze descentMethod).passes ≤ descentMethod.steps.length + 1 ∧
      (analyze descentMethod).passes = 4 := by
  have hids : (descentMethod.steps.map (·.id)).Nodup := by decide
  obtain ⟨_, _, hpasses⟩ := analyze_passes_le descentMethod hids
  exact ⟨hids, hpasses (by decide), by decide +kernel⟩

-- a single instruction that follows itself
example :
    (analyze { name := "spin", returnType := .void,
               steps := [{ id := 1, succs := [1], instr := .single (.var "x" .int) }] }).passes = 3 := by
  decide +kernel

end Liveness

end JavaMinus
