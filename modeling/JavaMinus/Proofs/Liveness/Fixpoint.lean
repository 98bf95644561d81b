import JavaMinus.Liveness
import Mathlib.Algebra.GroupWithZero.Nat
import Mathlib.Data.List.Forall2
import Mathlib.Data.List.Nodup
import Mathlib.Data.List.Perm.Subperm
import Mathlib.Data.List.Sort

/-!
# The liveness analysis settles

Every update adds names to the sets of a row and takes none away, as long as no set has more than the
flow equations ask for. A sweep that changes something makes the sets larger altogether, and they stay
within the names that the method reads, so the sweeps end, and they end in a solution of the equations.
-/

namespace JavaMinus

namespace NameSet

/-- Sets with the same members are equal, since both list them in ascending order. -/
theorem ext {s t : NameSet} (h : ∀ x, x ∈ s ↔ x ∈ t) : s = t := by
  obtain ⟨xs, hxs⟩ := s
  obtain ⟨ys, hys⟩ := t
  have hlists : xs = ys := hxs.eq_of_mem_iff hys h
  subst hlists
  rfl

instance : HasSubset NameSet := ⟨fun s t => ∀ x, x ∈ s → x ∈ t⟩

theorem subset_refl (s : NameSet) : s ⊆ s := fun _ h => h

theorem subset_trans {s t u : NameSet} (h : s ⊆ t) (h' : t ⊆ u) : s ⊆ u := fun x hx => h' x (h x hx)

theorem subset_antisymm {s t : NameSet} (h : s ⊆ t) (h' : t ⊆ s) : s = t :=
  ext fun x => ⟨h x, h' x⟩

theorem nodup (s : NameSet) : s.toList.Nodup := by
  refine List.Pairwise.imp ?_ s.ascending
  rintro a b hlt rfl
  exact String.lt_irrefl a hlt

theorem length_le_of_subset {s t : NameSet} (h : s ⊆ t) : s.toList.length ≤ t.toList.length :=
  (s.nodup.subperm fun x hx => h x hx).length_le

theorem eq_of_subset_of_length_le {s t : NameSet} (h : s ⊆ t)
    (hlen : t.toList.length ≤ s.toList.length) : s = t := by
  have hperm := (s.nodup.subperm fun x hx => h x hx).perm_of_length_le hlen
  exact ext fun x => hperm.mem_iff

end NameSet

open JavaMinus.Flat (Step Method)

namespace LiveRow

/-! ### Growing rows -/

/-- The same row with larger sets. -/
structure Grows (r r' : LiveRow) : Prop where
  id : r'.id = r.id
  defs : r'.defs = r.defs
  uses : r'.uses = r.uses
  liveIn : r.liveIn ⊆ r'.liveIn
  liveOut : r.liveOut ⊆ r'.liveOut

theorem Grows.refl (r : LiveRow) : Grows r r :=
  ⟨rfl, rfl, rfl, NameSet.subset_refl _, NameSet.subset_refl _⟩

theorem Grows.trans {r r' r'' : LiveRow} (h : Grows r r') (h' : Grows r' r'') : Grows r r'' where
  id := h'.id.trans h.id
  defs := h'.defs.trans h.defs
  uses := h'.uses.trans h.uses
  liveIn := NameSet.subset_trans h.liveIn h'.liveIn
  liveOut := NameSet.subset_trans h.liveOut h'.liveOut

theorem Grows.antisymm {r r' : LiveRow} (h : Grows r r') (h' : Grows r' r) : r = r' := by
  have hin := NameSet.subset_antisymm h.liveIn h'.liveIn
  have hout := NameSet.subset_antisymm h.liveOut h'.liveOut
  cases r
  cases r'
  have hid := h.id
  have hdefs := h.defs
  have huses := h.uses
  simp only at hid hdefs huses hin hout
  subst hid hdefs huses hin hout
  rfl

def AllGrow (rows rows' : List LiveRow) : Prop :=
  List.Forall₂ Grows rows rows'

theorem AllGrow.refl (rows : List LiveRow) : AllGrow rows rows :=
  List.forall₂_same.mpr fun r _ => .refl r

theorem AllGrow.trans {rows rows' rows'' : List LiveRow} (h : AllGrow rows rows')
    (h' : AllGrow rows' rows'') : AllGrow rows rows'' := by
  induction h generalizing rows'' with
  | nil => exact h'
  | cons hr _ ih =>
    cases h' with
    | cons hr' hrest' => exact .cons (hr.trans hr') (ih hrest')

theorem AllGrow.antisymm {rows rows' : List LiveRow} (h : AllGrow rows rows')
    (h' : AllGrow rows' rows) : rows = rows' := by
  induction h with
  | nil => rfl
  | cons hr _ ih =>
    cases h' with
    | cons hr' hrest' => rw [hr.antisymm hr', ih hrest']

theorem AllGrow.find? {rows rows' : List LiveRow} (h : AllGrow rows rows') (id : Nat) :
    (find? rows id = none ∧ find? rows' id = none) ∨
      ∃ r r', find? rows id = some r ∧ find? rows' id = some r' ∧ Grows r r' := by
  induction h with
  | nil => exact .inl ⟨rfl, rfl⟩
  | @cons r r' rest rest' hr _ ih =>
    unfold LiveRow.find? at ih ⊢
    rw [List.find?_cons, List.find?_cons, hr.id]
    by_cases hid : r.id = id
    · simp only [hid, beq_self_eq_true]
      exact .inr ⟨r, r', rfl, rfl, hr⟩
    · have hne : (r.id == id) = false := by simpa using hid
      simp only [hne]
      exact ih

theorem liveInAt_subset {rows rows' : List LiveRow} (h : AllGrow rows rows') (id : Nat) :
    liveInAt rows id ⊆ liveInAt rows' id := by
  unfold liveInAt
  rcases h.find? id with ⟨hn, hn'⟩ | ⟨r, r', hr, hr', hgrows⟩
  · rw [hn, hn']
    exact NameSet.subset_refl _
  · rw [hr, hr']
    exact hgrows.liveIn

theorem mem_outAt {rows : List LiveRow} {succs : List Nat} {x : String} :
    x ∈ outAt rows succs ↔ ∃ id ∈ succs, x ∈ liveInAt rows id := by
  simp [outAt]

theorem outAt_subset {rows rows' : List LiveRow} (h : AllGrow rows rows') (succs : List Nat) :
    outAt rows succs ⊆ outAt rows' succs := by
  intro x hx
  obtain ⟨id, hid, hmem⟩ := mem_outAt.mp hx
  exact mem_outAt.mpr ⟨id, hid, liveInAt_subset h id x hmem⟩

theorem mem_transfer {r : LiveRow} {out : NameSet} {x : String} :
    x ∈ r.transfer out ↔ x ∈ r.uses ∨ (x ∈ out ∧ ¬ x ∈ r.defs) := by
  simp [transfer]

theorem Grows.transfer_subset {r r' : LiveRow} (h : Grows r r') {out out' : NameSet}
    (hout : out ⊆ out') : r.transfer out ⊆ r'.transfer out' := by
  intro x hx
  rw [mem_transfer, h.uses, h.defs]
  rcases mem_transfer.mp hx with hx | ⟨hx, hdef⟩
  · exact .inl hx
  · exact .inr ⟨hout x hx, hdef⟩

/-! ### Rising rows -/

/-- No set has more than the flow equations ask for. -/
def Rising (steps : List Step) (rows : List LiveRow) : Prop :=
  ∀ s ∈ steps, ∀ r ∈ rows, r.id = s.id →
    r.liveOut ⊆ outAt rows s.succs ∧ r.liveIn ⊆ r.transfer (outAt rows s.succs)

theorem rising_start (steps : List Step) : Rising steps (steps.map start) := by
  intro s _ r hr _
  obtain ⟨s', _, rfl⟩ := List.mem_map.mp hr
  constructor <;> (intro x hx; exact absurd hx NameSet.not_mem_empty)

theorem grows_update {steps : List Step} {rows : List LiveRow} {s : Step} (hs : s ∈ steps)
    (h : Rising steps rows) : AllGrow rows (update s rows) := by
  unfold AllGrow update
  rw [List.forall₂_map_right_iff, List.forall₂_same]
  intro r hr
  by_cases hid : r.id = s.id
  · rw [if_pos hid]
    obtain ⟨hout, hin⟩ := h s hs r hr hid
    exact ⟨rfl, rfl, rfl, hin, hout⟩
  · rw [if_neg hid]
    exact .refl r

/-- An update leaves the rows rising: the updated row has what the equations ask for, and all others
are asked for no less than before. -/
theorem rising_update {steps : List Step} {rows : List LiveRow} {s : Step}
    (hids : (steps.map (·.id)).Nodup) (hs : s ∈ steps) (h : Rising steps rows) :
    Rising steps (update s rows) := by
  have hgrow := grows_update hs h
  intro s' hs' r' hr' hid'
  have hout := outAt_subset hgrow s'.succs
  obtain ⟨r, hr, heq⟩ := List.mem_map.mp hr'
  by_cases hid : r.id = s.id
  · rw [if_pos hid] at heq
    subst heq
    have hsame : s' = s := List.inj_on_of_nodup_map hids hs' hs (hid'.symm.trans hid)
    subst hsame
    exact ⟨hout, Grows.transfer_subset ⟨rfl, rfl, rfl, NameSet.subset_refl _, NameSet.subset_refl _⟩ hout⟩
  · rw [if_neg hid] at heq
    subst heq
    obtain ⟨ho, hi⟩ := h s' hs' r hr hid'
    exact ⟨NameSet.subset_trans ho hout,
      NameSet.subset_trans hi ((Grows.refl r).transfer_subset hout)⟩

theorem sweep_rising {steps : List Step} (hids : (steps.map (·.id)).Nodup) {part : List Step}
    (hpart : ∀ s ∈ part, s ∈ steps) {rows : List LiveRow} (h : Rising steps rows) :
    Rising steps (sweep part rows) ∧ AllGrow rows (sweep part rows) := by
  induction part with
  | nil => exact ⟨h, .refl rows⟩
  | cons s rest ih =>
    obtain ⟨hrise, hgrow⟩ := ih fun s' hs' => hpart s' (List.mem_cons_of_mem s hs')
    have hs := hpart s List.mem_cons_self
    exact ⟨rising_update hids hs hrise, hgrow.trans (grows_update hs hrise)⟩

theorem update_eq_of_sweep_eq {steps : List Step} (hids : (steps.map (·.id)).Nodup)
    {part : List Step} (hpart : ∀ s ∈ part, s ∈ steps) {rows : List LiveRow}
    (h : Rising steps rows) (hfix : sweep part rows = rows) : ∀ s ∈ part, update s rows = rows := by
  induction part with
  | nil => simp
  | cons s rest ih =>
    have hrest : ∀ s' ∈ rest, s' ∈ steps := fun s' hs' => hpart s' (List.mem_cons_of_mem s hs')
    obtain ⟨hrise, hgrow⟩ := sweep_rising hids hrest h
    have hlast := grows_update (hpart s List.mem_cons_self) hrise
    have hcons : update s (sweep rest rows) = rows := hfix
    rw [hcons] at hlast
    have hsame : sweep rest rows = rows := hlast.antisymm hgrow
    rw [hsame] at hcons
    intro s' hs'
    rcases List.mem_cons.mp hs' with rfl | hs'
    · exact hcons
    · exact ih hrest hsame s' hs'

/-! ### The sweeps end -/

/-- How many names the sets hold, counted with repeats. -/
def weight (rows : List LiveRow) : Nat :=
  (rows.map fun r => r.liveIn.toList.length + r.liveOut.toList.length).sum

/-- No set leaves `U`. -/
def Within (U : NameSet) (rows : List LiveRow) : Prop :=
  ∀ r ∈ rows, r.uses ⊆ U ∧ r.liveIn ⊆ U ∧ r.liveOut ⊆ U

theorem weight_le_of_within {U : NameSet} {rows : List LiveRow} (h : Within U rows) :
    weight rows ≤ 2 * rows.length * U.toList.length := by
  induction rows with
  | nil => simp [weight]
  | cons r rest ih =>
    have hrest := ih fun r' hr' => h r' (List.mem_cons_of_mem r hr')
    obtain ⟨_, hin, hout⟩ := h r List.mem_cons_self
    have hin' := NameSet.length_le_of_subset hin
    have hout' := NameSet.length_le_of_subset hout
    unfold weight at hrest ⊢
    have hcons : 2 * (r :: rest).length * U.toList.length =
        2 * rest.length * U.toList.length + 2 * U.toList.length := by
      rw [List.length_cons, Nat.mul_add, Nat.add_mul]
    rw [hcons]
    simp only [List.map_cons, List.sum_cons]
    omega

theorem weight_lt_of_grow {rows rows' : List LiveRow} (h : AllGrow rows rows') (hne : rows' ≠ rows) :
    weight rows < weight rows' := by
  have hle : weight rows ≤ weight rows' ∧ (weight rows' ≤ weight rows → rows' = rows) := by
    clear hne
    unfold weight
    induction h with
    | nil => simp
    | @cons r r' rest rest' hr hrest ih =>
      have hin := NameSet.length_le_of_subset hr.liveIn
      have hout := NameSet.length_le_of_subset hr.liveOut
      simp only [List.map_cons, List.sum_cons]
      refine ⟨by omega, ?_⟩
      intro hback
      have hsame : r = r' := by
        have hin' := NameSet.eq_of_subset_of_length_le hr.liveIn (by omega)
        have hout' := NameSet.eq_of_subset_of_length_le hr.liveOut (by omega)
        apply hr.antisymm
        exact ⟨hr.id.symm, hr.defs.symm, hr.uses.symm, hin' ▸ NameSet.subset_refl _,
          hout' ▸ NameSet.subset_refl _⟩
      rw [ih.2 (by omega), hsame]
  exact Nat.lt_of_not_ge fun hback => hne (hle.2 hback)

theorem within_update {U : NameSet} {rows : List LiveRow} {s : Step} (h : Within U rows) :
    Within U (update s rows) := by
  have hout : outAt rows s.succs ⊆ U := by
    intro x hx
    obtain ⟨id, _, hmem⟩ := mem_outAt.mp hx
    unfold liveInAt at hmem
    cases hf : find? rows id with
    | none =>
      rw [hf] at hmem
      exact absurd hmem NameSet.not_mem_empty
    | some r =>
      rw [hf] at hmem
      exact (h r (List.mem_of_find?_eq_some hf)).2.1 x hmem
  intro r' hr'
  obtain ⟨r, hr, heq⟩ := List.mem_map.mp hr'
  obtain ⟨huses, hin, hout'⟩ := h r hr
  by_cases hid : r.id = s.id
  · rw [if_pos hid] at heq
    subst heq
    refine ⟨huses, ?_, hout⟩
    intro x hx
    rcases mem_transfer.mp hx with hx | ⟨hx, _⟩
    · exact huses x hx
    · exact hout x hx
  · rw [if_neg hid] at heq
    subst heq
    exact ⟨huses, hin, hout'⟩

theorem within_sweep {U : NameSet} {rows : List LiveRow} (part : List Step) (h : Within U rows) :
    Within U (sweep part rows) := by
  induction part with
  | nil => exact h
  | cons s rest ih => exact within_update ih

/-- Sweeping until nothing changes: `Settles steps rows n out` says that from `rows` this takes `n`
sweeps, the last of which leaves `out` as it is. -/
inductive Settles (steps : List Step) : List LiveRow → Nat → List LiveRow → Prop
  | last {rows : List LiveRow} : sweep steps rows = rows → Settles steps rows 1 rows
  | again {rows out : List LiveRow} {n : Nat} : sweep steps rows ≠ rows →
      Settles steps (sweep steps rows) n out → Settles steps rows (n + 1) out

theorem Settles.grows {steps : List Step} (hids : (steps.map (·.id)).Nodup) {rows out : List LiveRow}
    {n : Nat} (h : Settles steps rows n out) (hrise : Rising steps rows) :
    Rising steps out ∧ AllGrow rows out ∧ sweep steps out = out := by
  induction h with
  | last hfix => exact ⟨hrise, .refl _, hfix⟩
  | again _ _ ih =>
    obtain ⟨hrise', hgrow⟩ := sweep_rising hids (fun s hs => hs) hrise
    obtain ⟨hout, hrest, hfix⟩ := ih hrise'
    exact ⟨hout, hgrow.trans hrest, hfix⟩

/-- With fuel for every name that can still be added, the sweeps go on until nothing changes. -/
theorem settle_settles {steps : List Step} (hids : (steps.map (·.id)).Nodup) {U : NameSet}
    (fuel passes : Nat) {rows : List LiveRow} (hrise : Rising steps rows) (hU : Within U rows)
    (hfuel : 2 * rows.length * U.toList.length < weight rows + fuel) :
    ∃ n out, settle steps fuel passes rows = (passes + n, out) ∧ Settles steps rows n out := by
  induction fuel generalizing passes rows with
  | zero =>
    -- the sets cannot hold more names than `U` has for each of them
    have := weight_le_of_within hU
    omega
  | succ fuel ih =>
    obtain ⟨hrise', hgrow⟩ := sweep_rising hids (fun s hs => hs) hrise
    unfold settle
    by_cases heq : sweep steps rows = rows
    · simp only [heq, if_true]
      exact ⟨1, rows, rfl, .last heq⟩
    · simp only [heq, if_false]
      -- a sweep that changes the rows adds a name, which pays for the fuel
      have hlt := weight_lt_of_grow hgrow heq
      have hlen : (sweep steps rows).length = rows.length := (List.Forall₂.length_eq hgrow).symm
      obtain ⟨n, out, hsettle, hsettles⟩ :=
        ih (passes + 1) hrise' (within_sweep steps hU) (by rw [hlen]; omega)
      refine ⟨n + 1, out, ?_, .again heq hsettles⟩
      rw [hsettle, Nat.add_assoc, Nat.add_comm 1 n]

end LiveRow

/-! ### The result of the analysis -/

/-- The sets of definitions and uses are those of the instructions. -/
def Liveness.Describes (lv : Liveness) (m : Method) : Prop :=
  ∀ s ∈ m.steps, ∀ r, lv.row? s.id = some r →
    r.defs = NameSet.ofList s.instr.defines?.toList ∧ r.uses = NameSet.ofList s.instr.reads

namespace Liveness

/-- The analysis counts the sweeps that it takes for the starting rows to settle. -/
theorem analyze_settles {m : Method} (hids : (m.steps.map (·.id)).Nodup) :
    LiveRow.Settles m.steps (m.steps.map LiveRow.start) (analyze m).passes (analyze m).rows := by
  have hU : LiveRow.Within (NameSet.unions ((m.steps.map LiveRow.start).map (·.uses)))
      (m.steps.map LiveRow.start) := by
    intro r hr
    obtain ⟨s, _, rfl⟩ := List.mem_map.mp hr
    refine ⟨?_, fun x hx => absurd hx NameSet.not_mem_empty,
      fun x hx => absurd hx NameSet.not_mem_empty⟩
    intro x hx
    exact NameSet.mem_unions.mpr ⟨_, List.mem_map_of_mem hr, hx⟩
  obtain ⟨n, out, hsettle, hsettles⟩ := LiveRow.settle_settles hids
    (sweepBound (m.steps.map LiveRow.start)) 0 (LiveRow.rising_start m.steps) hU
    (by unfold sweepBound; omega)
  rw [Nat.zero_add] at hsettle
  unfold analyze
  simp only [hsettle]
  exact hsettles

/-- The rows of the analysis are the starting rows, grown until every equation holds. -/
theorem analyze_rows {m : Method} (hids : (m.steps.map (·.id)).Nodup) :
    LiveRow.AllGrow (m.steps.map LiveRow.start) (analyze m).rows ∧
      ∀ s ∈ m.steps, LiveRow.update s (analyze m).rows = (analyze m).rows := by
  obtain ⟨hrise, hgrow, hfix⟩ := (analyze_settles hids).grows hids (LiveRow.rising_start m.steps)
  exact ⟨hgrow, LiveRow.update_eq_of_sweep_eq hids (fun s hs => hs) hrise hfix⟩

theorem analyze_describes {m : Method} (hids : (m.steps.map (·.id)).Nodup) :
    (analyze m).Describes m := by
  intro s hs r hr
  rcases (analyze_rows hids).1.find? s.id with ⟨_, hnone⟩ | ⟨r₀, r', hr₀, hr', hgrows⟩
  · exact absurd (hnone.symm.trans hr) (by simp)
  · obtain rfl : r' = r := Option.some.inj (hr'.symm.trans hr)
    have hmem := List.mem_of_find?_eq_some hr₀
    have hid : r₀.id = s.id := by simpa using List.find?_some hr₀
    obtain ⟨s', hs', rfl⟩ := List.mem_map.mp hmem
    have hsame : s' = s := List.inj_on_of_nodup_map hids hs' hs hid
    subst hsame
    exact ⟨hgrows.defs, hgrows.uses⟩

/-- Only the instructions of the method have rows. -/
theorem mem_ids_of_mem_liveInAt {m : Method} (hids : (m.steps.map (·.id)).Nodup) {id : Nat}
    {v : String} (hv : v ∈ LiveRow.liveInAt (analyze m).rows id) : id ∈ m.steps.map (·.id) := by
  unfold LiveRow.liveInAt at hv
  rcases (analyze_rows hids).1.find? id with ⟨_, hnone⟩ | ⟨r₀, _, hr₀, _, _⟩
  · rw [hnone] at hv
    exact absurd hv NameSet.not_mem_empty
  · have hid : r₀.id = id := by simpa using List.find?_some hr₀
    obtain ⟨s, hs, rfl⟩ := List.mem_map.mp (List.mem_of_find?_eq_some hr₀)
    exact List.mem_map.mpr ⟨s, hs, hid⟩

theorem outAt_existing {m : Method} (hids : (m.steps.map (·.id)).Nodup) (succs : List Nat) :
    LiveRow.outAt (analyze m).rows (succs.filter (m.steps.map (·.id)).contains) =
      LiveRow.outAt (analyze m).rows succs := by
  apply NameSet.ext
  intro v
  rw [LiveRow.mem_outAt, LiveRow.mem_outAt]
  constructor
  · rintro ⟨id, hid, hv⟩
    exact ⟨id, List.mem_of_mem_filter hid, hv⟩
  · rintro ⟨id, hid, hv⟩
    have hmem := mem_ids_of_mem_liveInAt hids hv
    exact ⟨id, List.mem_filter.mpr ⟨hid, List.contains_iff_mem.mpr hmem⟩, hv⟩

theorem analyze_isFixpoint {m : Method} (hids : (m.steps.map (·.id)).Nodup) :
    (analyze m).isFixpoint m = true := by
  obtain ⟨hgrow, hfix⟩ := analyze_rows hids
  unfold isFixpoint
  rw [List.all_eq_true]
  intro s hs
  rcases hgrow.find? s.id with ⟨hnone, _⟩ | ⟨r₀, r, _, hr, _⟩
  · have hmem : LiveRow.start s ∈ m.steps.map LiveRow.start := List.mem_map_of_mem hs
    have hne := List.find?_eq_none.mp hnone _ hmem
    simp [LiveRow.start] at hne
  · have hmem := List.mem_of_find?_eq_some hr
    have hid : r.id = s.id := by simpa using List.find?_some hr
    have hmap := List.map_eq_map_iff.mp ((hfix s hs).trans (List.map_id _).symm) r hmem
    rw [if_pos hid] at hmap
    have hin := congrArg LiveRow.liveIn hmap
    have hout := congrArg LiveRow.liveOut hmap
    simp only [row?, hr, Bool.and_eq_true, beq_iff_eq, outAt_existing hids]
    exact ⟨hout.symm, hin.symm⟩

end Liveness

end JavaMinus
