import JavaMinus.Proofs.Assembly.MethodEnds
import JavaMinus.Proofs.Assembly.SlotPaths
import JavaMinus.Proofs.Lowering.Assignment
import JavaMinus.Proofs.Lowering.ParameterSlots

/-!
# Safe slots

However variables share slots, a load finds what was meant for it. On every path the last store to the
slot of a variable was one to this variable, and with the type that it is loaded with. Only parameters
are read without a store, and those have been placed by the caller.
-/

namespace JavaMinus.Lowering

open JavaMinus.Flat (Ty Operand Code labelsOf)
open JavaMinus.Source (SymbolTable)

/-! ### Variables of lowered methods -/

/-- Operands with the same name have the same type, those that name fields included. -/
def OneType (m : Flat.Method) : Prop :=
  ∀ s ∈ m.steps, ∀ s' ∈ m.steps, ∀ op ∈ s.instr.mentions, ∀ op' ∈ s'.instr.mentions, ∀ v,
    op.name? = some v → op'.name? = some v → op.ty = op'.ty

/-- What is known of the variables of a method that was lowered with these symbols. -/
structure Sourced (symbols : SymbolTable) (m : Flat.Method) : Prop where
  source : ∃ header code, Flat.Method.assemble header code = .ok m ∧ SelfContained code ∧
    (labelsOf code).Nodup
  types : OneType m
  /-- A name is that of a local variable, of a parameter or of a temporary. -/
  origin : ∀ s ∈ m.steps, ∀ op ∈ s.instr.operands, ∀ v, op.name? = some v →
    HasLocal symbols m.name v ∨ v ∈ m.params.map (·.name) ∨
      (symbols.isDeclared m.name v = false ∧ ∃ n, v = tempName n)
  live : ∀ v, LiveFrom m.steps 1 v → symbols.isDeclared m.name v = true

section Methods

variable {symbols : SymbolTable} {decl : Source.Method} {m : Flat.Method} {f f' : Fresh}

theorem oneType_of_typed {σ : Scope} {types : Nat → Ty}
    (h : ∀ s ∈ m.steps, ∀ op ∈ s.instr.operands, ∀ v, op.name? = some v → Typed σ types v op)
    (hfields : ∀ s ∈ m.steps, FieldsNamed σ s.instr) : OneType m := by
  have hmention : ∀ s ∈ m.steps, ∀ op ∈ s.instr.mentions, ∀ v, op.name? = some v →
      Typed σ types v op := by
    intro s hs op hop v hv
    rcases List.mem_append.mp hop with hop | hop
    · exact h s hs op hop v hv
    · obtain ⟨name, hfield⟩ := hfields s hs op hop
      obtain ⟨b, hb, hty⟩ := fieldOperand?_type hfield
      obtain ⟨_, _, _, rfl⟩ := fieldOperand?_cases hfield
      obtain rfl := Option.some.inj hv
      exact .inl ⟨b, hb, hty⟩
  intro s hs s' hs' op hop op' hop' v hv hv'
  exact (hmention s hs op hop v hv).ty_eq (hmention s' hs' op' hop' v hv')

theorem LowersMethod.sourced (h : LowersMethod { symbols } decl f m f') : Sourced symbols m := by
  have hparams := h.shaped.2
  have hlive (v : String) (hv : LiveFrom m.steps 1 v) := h.isDeclared_of_live hv
  cases h with
  | @method result params body _ _ _ _ _ hbody hm =>
    have hname : m.name = decl.name := by rw [(Flat.Method.steps_of_assemble hm).1, methodHeader]
    have hlabels : (labelsOf (methodCode { symbols } decl result body)).Nodup := by
      rw [labelsOf_methodCode]
      exact hbody.numbered.nodup
    obtain ⟨types, hknown⟩ :=
      (hbody.explained (fun _ => trivial) fun _ => trivial).methodCode (fun _ => trivial)
    have hknown' : ∀ s ∈ m.steps, ∀ op ∈ s.instr.operands, Known _ True types _ _ op :=
      fun s hs op hop => hknown op (mem_operandsOf_of_step hm hs hop)
    refine ⟨⟨_, _, hm, hbody.selfContained.methodCode, hlabels⟩, ?_, ?_, ?_⟩
    · refine oneType_of_typed (fun s hs op hop v hv => (hknown' s hs op hop).typed hv) ?_
      exact fun s hs => fieldsNamed_of_assemble hm hbody.fieldsNamed.methodCode hs
    · intro s hs op hop v hv
      rw [hname]
      cases hknown' s hs op hop with
      | lit | cls | elem | self => simp [Operand.name?, Scope.self] at hv
      | slot hslot =>
        rcases slotOperand?_cases hslot with ⟨_, _, hr, rfl⟩ | ⟨_, _, _, hr, rfl⟩
        · obtain rfl := Option.some.inj hv
          exact .inl (resolve?_declared hr)
        · obtain rfl := Option.some.inj hv
          exact .inr (.inl (hparams s hs _ hop _ rfl))
      | @temp k _ _ hfree =>
        obtain rfl := Option.some.inj hv
        exact .inr (.inr ⟨hfree, k, rfl⟩)
    · rw [hname]
      exact hlive

theorem sourced_defaultConstructor (h : defaultConstructor { symbols } = .ok m) :
    Sourced symbols m := by
  have hself : ∀ s ∈ m.steps, ∀ op ∈ s.instr.operands, op.name? = none := by
    intro s hs op hop
    rw [defaultConstructor_explained h hs op hop]
    rfl
  refine ⟨⟨_, _, h, .instr rfl, by simp [superInit]⟩, ?_, ?_, ?_⟩
  · have htyped : ∀ s ∈ m.steps, ∀ op ∈ s.instr.operands, ∀ v, op.name? = some v →
        Typed { symbols } (fun _ => .void) v op := by
      intro s hs op hop v hv
      rw [hself s hs op hop] at hv
      cases hv
    exact oneType_of_typed htyped fun s hs =>
      fieldsNamed_of_assemble h (CodeFieldsNamed.nil.plain rfl) hs
  · intro s hs op hop v hv
    rw [hself s hs op hop] at hv
    cases hv
  · intro v hv
    exact absurd hv (not_live_defaultConstructor h)

theorem LowersClass.sourced {program : Source.Program} {cls : Flat.Class}
    (h : LowersClass program symbols cls) (hm : m ∈ cls.methods) : Sourced symbols m := by
  rcases h.method_cases hm with hctor | ⟨decl, _, f, f', hlow⟩
  · exact sourced_defaultConstructor hctor
  · exact hlow.sourced

end Methods

end JavaMinus.Lowering

namespace JavaMinus.Assembly

open JavaMinus.Flat (Operand Access labelsOf)
open JavaMinus.Lowering (HasLocal OneType Sourced)
open JavaMinus.Source (CompilationUnit SymbolTable)

/-- On the path `q`, the last store to the slot was one to the variable `v` with values of this kind. -/
def LastStored (m : Flat.Method) (body : List Line) (q : List Nat) (v : String) (kind : Kind)
    (slot : Nat) : Prop :=
  ∃ front j back op, q = front ++ j :: back ∧ accessAt m body j = some (.store op) ∧
    op.name? = some v ∧ body[j]? = some (.op (.store kind slot)) ∧ ∀ x ∈ back, ¬ StoresTo body slot x

/-- Variable `v` is a parameter, the slot is that of the parameter and nothing was stored there on the
path `q`. -/
def Untouched (m : Flat.Method) (body : List Line) (q : List Nat) (v : String) (slot : Nat) : Prop :=
  (∃ (k : Nat) (p : Flat.Param), m.params[k]? = some p ∧ p.name = v ∧ slot = k + SlotTable.base m) ∧
    ∀ x ∈ q, ¬ StoresTo body slot x

/-- The slots of an emitted method are used safely. -/
structure SlotSafe (m : Flat.Method) (table : SlotTable) (out : Method) : Prop where
  types : OneType m
  /-- Loads and stores of the body are those of the method, in order. -/
  accesses : Performs table out.body m.accesses
  /-- What a load finds on each path from the first line. -/
  loads : ∀ q i kind slot, Path out.body q i → out.body[i]? = some (.op (.load kind slot)) →
    ∃ op, accessAt m out.body i = some (.load op) ∧ kind = .of op.ty ∧
      ((m.isStatic = false ∧ slot = 0 ∧ ∃ cls, op = .self cls) ∨
        ∃ v, op.name? = some v ∧
          (LastStored m out.body q v kind slot ∨ Untouched m out.body q v slot))
  receiver : m.isStatic = false → ∀ i, ¬ StoresTo out.body 0 i
  bounds : ∀ kind slot, .op (.load kind slot) ∈ out.body ∨ .op (.store kind slot) ∈ out.body →
    slot < out.localsLimit
  frame : m.params.length + SlotTable.base m ≤ out.localsLimit

/-! ### Emitted methods -/

section Methods

variable {symbols : SymbolTable} {cls : Flat.Class} {m : Flat.Method} {table : SlotTable}
  {out : Method} {blocks : List (List Line)} {limit : Option Nat}

theorem rendered_of_emit (hsource : Sourced symbols m) (hout : Method.emit cls m table = .ok out) :
    ∃ blocks, Rendered m table blocks ∧ out.body = bodyOf m blocks := by
  obtain ⟨header, code, hm, hcode, hlabels⟩ := hsource.source
  obtain ⟨lines, _, _, hnodup⟩ := emit_expands hm hout hcode hlabels
  obtain ⟨blocks, σ, hemits, hbody⟩ := emit_body hout
  refine ⟨blocks, ⟨⟨header, code, hm, hlabels⟩, hemits.length_eq, ?_, ?_⟩, hbody⟩
  · intro k s block hs hblock
    obtain ⟨block', _, _, hblock', hinstr⟩ := hemits.has_block hs
    obtain rfl := Option.some.inj (hblock.symm.trans hblock')
    exact (instruction_emits hinstr).block
  · rw [hbody] at hnodup
    exact hnodup

theorem localsLimit_emit (h : Method.emit cls m table = .ok out) :
    out.localsLimit = table.localsLimit := by
  unfold Method.emit at h
  obtain ⟨⟨lines, σ⟩, _, h⟩ := Flat.bind_eq_ok.mp h
  obtain ⟨descriptor, _, h⟩ := Flat.bind_eq_ok.mp h
  obtain rfl := Flat.pure_eq_ok.mp h
  rfl

theorem mem_operands_of_access {body : List Line} {access : Access} {i : Nat}
    (h : accessAt m body i = some access) :
    ∃ s ∈ m.steps, ∀ op, access = .load op ∨ access = .store op → op ∈ s.instr.operands := by
  have hmem : access ∈ m.accesses := by
    unfold accessAt at h
    split at h
    · exact List.mem_of_getElem? h
    · cases h
  obtain ⟨s, hs, hmem⟩ := List.mem_flatMap.mp hmem
  refine ⟨s, hs, ?_⟩
  rcases List.mem_append.mp hmem with hload | hstore
  · obtain ⟨op', hop', rfl⟩ := List.mem_map.mp hload
    rintro op (heq | heq)
    · cases heq
      exact (Flat.Instr.mem_loads hop').1
    · cases heq
  · obtain ⟨op', hop', rfl⟩ := List.mem_map.mp hstore
    rintro op (heq | heq)
    · cases heq
    · cases heq
      exact (Flat.Instr.stores?_eq_some (Option.mem_toList.mp hop')).1

/-- No variable of a method stands in the slot of the current object. -/
theorem index_ne_zero (hsource : Sourced symbols m) (htable : SlotTable.forMethod m limit = .ok table)
    (hfit : SlotTable.extent m limit ≤ 65535) (hthis : ¬ HasLocal symbols m.name SlotTable.selfName) (hm : m.isStatic = false) {s : Flat.Step}
    (hs : s ∈ m.steps) {op : Operand} (hop : op ∈ s.instr.operands) {v : String} {slot : Slot}
    (hv : op.name? = some v) (hslot : table.get? v = some slot) : slot.index ≠ 0 := by
  intro hzero
  obtain ⟨rfl, hparam⟩ := SlotTable.forMethod_index_zero htable hfit hm hslot hzero
  rcases hsource.origin s hs op hop _ hv with hlocal | hmem | ⟨_, n, htemp⟩
  · exact hthis hlocal
  · exact hparam hmem
  · exact Lowering.tempName_ne_this n htemp.symm

/-- What is loaded without a store on the way is a parameter. -/
theorem param_of_wanted (hsource : Sourced symbols m) (h : Rendered m table blocks)
    (htable : SlotTable.forMethod m limit = .ok table) (hfit : SlotTable.extent m limit ≤ 65535)
    (hlocals : ∀ v, HasLocal symbols m.name v → ¬ (Liveness.analyze m).LiveAt m 0 v)
    {s : Flat.Step} (hs : s ∈ m.steps) {op : Operand} (hop : op ∈ s.instr.operands) {v : String}
    {slot : Slot} (hv : op.name? = some v) (hslot : table.get? v = some slot)
    (hwanted : Wanted m blocks 0 v) :
    ∃ (k : Nat) (p : Flat.Param), m.params[k]? = some p ∧ p.name = v ∧
      slot.index.toNat = k + SlotTable.base m := by
  have hlive := h.live_of_wanted_first hwanted
  rcases hsource.origin s hs op hop v hv with hlocal | hmem | ⟨hfree, _⟩
  · exact absurd hlive (hlocals v hlocal)
  · obtain ⟨k, p, hk, hname, hget⟩ := SlotTable.fixed_param hmem
    obtain rfl := Option.some.inj (hslot.symm.trans (SlotTable.forMethod_fixed htable hget))
    have hlt := (List.getElem?_eq_some_iff.mp hk).1
    have hcount := Nat.le_trans (SlotTable.fixedCount_le_extent m limit) hfit
    unfold SlotTable.fixedCount at hcount
    refine ⟨k, p, hk, hname, ?_⟩
    rw [Nat.add_comm k]
    exact UInt16.toNat_ofNat_of_lt' (show _ < 65536 by omega)
  · obtain ⟨header, code, hm, _⟩ := hsource.source
    obtain ⟨first, hfirst, hin⟩ := hlive
    rw [Flat.Method.id_of_assemble hm hfirst, Liveness.mem_liveInAt_iff (Flat.Method.nodup_ids hm)]
      at hin
    rw [hsource.live v hin] at hfree
    cases hfree

theorem load_cases (h : Rendered m table blocks) {i : Nat} {kind : Kind} {slot : Nat}
    (hline : (bodyOf m blocks)[i]? = some (.op (.load kind slot))) :
    ∃ op, accessAt m (bodyOf m blocks) i = some (.load op) ∧ kind = .of op.ty ∧
      ((slot = 0 ∧ ∃ cls, op = .self cls) ∨
        ∃ v s, op.name? = some v ∧ table.get? v = some s ∧ s.index.toNat = slot) := by
  obtain ⟨access, hat, hshape⟩ := h.access_of_line hline rfl
  cases access with
  | store op =>
    obtain ⟨_, _, _, _, hstore⟩ := accessLine?_store hshape
    cases hstore
  | load op =>
    refine ⟨op, hat, ?_⟩
    rcases accessLine?_load hshape with ⟨name, rfl, hload⟩ | ⟨v, s, hv, hs, hload⟩
    · cases hload
      exact ⟨rfl, .inl ⟨rfl, name, rfl⟩⟩
    · cases hload
      exact ⟨rfl, .inr ⟨v, s, hv, hs, rfl⟩⟩

theorem store_cases (h : Rendered m table blocks) {i : Nat} {kind : Kind} {slot : Nat}
    (hline : (bodyOf m blocks)[i]? = some (.op (.store kind slot))) :
    ∃ op v s, accessAt m (bodyOf m blocks) i = some (.store op) ∧ op.name? = some v ∧
      table.get? v = some s ∧ s.index.toNat = slot := by
  obtain ⟨access, hat, hshape⟩ := h.access_of_line hline rfl
  cases access with
  | store op =>
    obtain ⟨v, s, hv, hs, hstore⟩ := accessLine?_store hshape
    cases hstore
    exact ⟨op, v, s, hat, hv, hs, rfl⟩
  | load op =>
    rcases accessLine?_load hshape with ⟨_, _, hload⟩ | ⟨_, _, _, _, hload⟩
    · cases hload
    · cases hload

/-- On every path a variable is loaded as it was stored, or as the caller has passed it. -/
theorem load_safe (hsource : Sourced symbols m) (h : Rendered m table blocks)
    (htable : SlotTable.forMethod m limit = .ok table) (hfit : SlotTable.extent m limit ≤ 65535)
    (hlocals : ∀ v, HasLocal symbols m.name v → ¬ (Liveness.analyze m).LiveAt m 0 v) {q : List Nat}
    {i : Nat} (hpath : Path (bodyOf m blocks) q i) {op : Operand}
    (hat : accessAt m (bodyOf m blocks) i = some (.load op)) {v : String} {slot : Slot}
    (hv : op.name? = some v) (hslot : table.get? v = some slot) :
    LastStored m (bodyOf m blocks) q v (.of op.ty) slot.index ∨
      Untouched m (bodyOf m blocks) q v slot.index := by
  obtain ⟨s, hs, hmem⟩ := mem_operands_of_access hat
  have hop := hmem op (.inl rfl)
  rcases h.last_store htable hfit hpath hslot (h.wanted_of_load hat hv) with
    ⟨front, j, back, op', hq, hat', hv', hline, hback⟩ | ⟨hnone, hwanted⟩
  · left
    obtain ⟨s', hs', hmem'⟩ := mem_operands_of_access hat'
    have hty : op'.ty = op.ty := hsource.types s' hs' s hs op'
      (List.mem_append_left _ (hmem' op' (.inr rfl))) op (List.mem_append_left _ hop) v hv' hv
    rw [hty] at hline
    exact ⟨front, j, back, op', hq, hat', hv', hline, hback⟩
  · exact .inr ⟨param_of_wanted hsource h htable hfit hlocals hs hop hv hslot hwanted, hnone⟩

theorem slotSafe (hsource : Sourced symbols m) (htable : SlotTable.forMethod m limit = .ok table)
    (hfit : SlotTable.extent m limit ≤ 65535) (hout : Method.emit cls m table = .ok out)
    (hthis : ¬ HasLocal symbols m.name SlotTable.selfName)
    (hself : m.isStatic = false ∨ ∀ s ∈ m.steps, ∀ op ∈ s.instr.mentions, ∀ cls, op ≠ .self cls)
    (hlocals : ∀ v, HasLocal symbols m.name v → ¬ (Liveness.analyze m).LiveAt m 0 v) :
    SlotSafe m table out := by
  obtain ⟨blocks, h, hbody⟩ := rendered_of_emit hsource hout
  have hlimit := localsLimit_emit hout
  have hframe := SlotTable.fixedCount_le_localsLimit htable hfit
  rw [SlotTable.fixedCount, Nat.add_comm] at hframe
  have hinstance {i : Nat} {name : String}
      (hat : accessAt m (bodyOf m blocks) i = some (.load (.self name))) : m.isStatic = false := by
    obtain ⟨s, hs, hmem⟩ := mem_operands_of_access hat
    exact hself.resolve_right fun hnone =>
      hnone s hs _ (List.mem_append_left _ (hmem _ (.inl rfl))) name rfl
  refine ⟨hsource.types, ?_, ?_, ?_, ?_, ?_⟩
  · rw [hbody]
    exact h.performs
  · rw [hbody]
    intro q i kind slot hpath hline
    obtain ⟨op, hat, rfl, hcases⟩ := load_cases h hline
    refine ⟨op, hat, rfl, ?_⟩
    rcases hcases with ⟨rfl, name, rfl⟩ | ⟨v, s, hv, hs, rfl⟩
    · exact .inl ⟨hinstance hat, rfl, name, rfl⟩
    · exact .inr ⟨v, hv, load_safe hsource h htable hfit hlocals hpath hat hv hs⟩
  · rw [hbody]
    rintro hm i ⟨kind, hline⟩
    obtain ⟨op, v, slot, hat, hv, hslot, hzero⟩ := store_cases h hline
    obtain ⟨s, hs, hmem⟩ := mem_operands_of_access hat
    exact index_ne_zero hsource htable hfit hthis hm hs (hmem op (.inr rfl)) hv hslot
      (UInt16.toNat_inj.mp hzero)
  · rw [hbody, hlimit]
    rintro kind slot (hmem | hmem)
    · obtain ⟨i, hline⟩ := List.mem_iff_getElem?.mp hmem
      obtain ⟨op, hat, _, ⟨rfl, name, rfl⟩ | ⟨v, s, _, hs, rfl⟩⟩ := load_cases h hline
      · have hbase : SlotTable.base m = 1 := by simp [SlotTable.base, hinstance hat]
        omega
      · exact SlotTable.forMethod_lt_localsLimit htable hfit hs
    · obtain ⟨i, hline⟩ := List.mem_iff_getElem?.mp hmem
      obtain ⟨op, v, s, _, _, hs, rfl⟩ := store_cases h hline
      exact SlotTable.forMethod_lt_localsLimit htable hfit hs
  · rw [hlimit]
    exact hframe

end Methods

/-! ### Classes -/

/-- Slots are safe, however variables share them. Take a method with a current object, or without an
operand for it, in which no local variable is live at the start, and number its slots without wrapping
around. Each name has one type, each load of a variable finds the last value that was stored for it and
with the same kind, or it is a parameter where the caller has put it; the slot of the current object is
never stored to, and the limit of the frame covers all slots. -/
theorem compileUnit_slots_safe (u : CompilationUnit) (limit : Option Nat) (a : Artifacts)
    (h : compileUnit u limit = .ok a) :
    ∃ (cls : Flat.Class) (tables : List SlotTable) (asm : Class), lowerUnit u = .ok cls ∧
      slotTables cls limit = .ok tables ∧ Class.emit cls tables = .ok asm ∧
      a.assembly = asm.text ∧ tables.length = cls.methods.length ∧
      asm.methods.length = cls.methods.length ∧
      ∀ (k : Nat) (m : Flat.Method) (table : SlotTable) (out : Method), cls.methods[k]? = some m →
        tables[k]? = some table → asm.methods[k]? = some out → SlotTable.extent m limit ≤ 65535 →
        ¬ HasLocal u.symbols m.name SlotTable.selfName →
        (m.isStatic = false ∨
          ∀ s ∈ m.steps, ∀ op ∈ s.instr.mentions, ∀ name, op ≠ .self name) →
        (∀ v, HasLocal u.symbols m.name v → ¬ (Liveness.analyze m).LiveAt m 0 v) →
        SlotSafe m table out := by
  unfold compileUnit at h
  obtain ⟨cls, hcls, h⟩ := Flat.bind_eq_ok.mp h
  obtain ⟨tables, htables, h⟩ := Flat.bind_eq_ok.mp h
  obtain ⟨asm, hasm, h⟩ := Flat.bind_eq_ok.mp h
  obtain rfl := Flat.pure_eq_ok.mp h
  obtain ⟨hlen, hmethods⟩ := emit_tables hasm
  have hlen' := hmethods.length_eq
  rw [List.length_zip, hlen, Nat.min_self] at hlen'
  refine ⟨cls, tables, asm, hcls, htables, hasm, rfl, hlen, hlen'.symm, ?_⟩
  intro k m table out hm htable hout hfit hthis hself hlocals
  have hsource := (lowersClass_of_lowerUnit hcls).sourced (List.mem_of_getElem? hm)
  have hslots := forall₂_getElem? (Flat.forall₂_of_mapM htables) hm htable
  have hpair : (cls.methods.zip tables)[k]? = some (m, table) :=
    List.getElem?_zip_eq_some.mpr ⟨hm, htable⟩
  have hemit := forall₂_getElem? hmethods hpair hout
  exact slotSafe hsource hslots hfit hemit hthis hself hlocals

/-- `int fill(int n) { k = n + 1; if (k < 9) n = k; a = new int[n]; return a.length; }` -/
def fillUnit : CompilationUnit where
  program.cls.name := "Pool"
  program.cls.methods := [
    { name := "fill", access := .pub
      body := [
        .assign {} "k" (.binary {} .add (.ident {} "n") (.intLit {} 1)),
        .branch {} (.binary {} .lt (.ident {} "k") (.intLit {} 9))
          (.block {} [.assign {} "n" (.ident {} "k")]) none,
        .assign {} "a" (.newArray {} (.ident {} "n")),
        .ret {} (some (.length {} (.ident {} "a")))] }]
  symbols.className := "Pool"
  symbols.methods := [
    { name := "fill", returnType := { name := "int" }
      parameters := [{ name := "n", type := { name := "int" } }]
      locals := [{ name := "k", type := { name := "int" } },
        { name := "a", type := { name := "int", isArray := true } }] }]

/-- A number, an array and a number again stand in slot 2. -/
def fillBody : List Line := [
  .op (.load .int 1), .op (.const 1), .op (.arith .add), .op (.store .int 2), .op (.load .int 2),
  .op (.const 9), .op (.ifCompare .lt "then_0"), .op (.goto "endif_0"), .label "then_0",
  .op (.load .int 2), .op (.store .int 1), .label "endif_0", .op (.load .int 1), .op .newIntArray,
  .op (.store .ref 2), .op (.load .ref 2), .op .arrayLength, .op (.store .int 2), .op (.load .int 2),
  .op (.retValue .int)]

theorem compileUnit_slots_safe_fill :
    ∃ a m table out, compileUnit fillUnit (some 0) = .ok a ∧ m.name = "fill" ∧ m.isStatic = false ∧
      SlotTable.extent m (some 0) ≤ 65535 ∧ ¬ HasLocal fillUnit.symbols m.name SlotTable.selfName ∧
      (∀ v, HasLocal fillUnit.symbols m.name v → ¬ (Liveness.analyze m).LiveAt m 0 v) ∧
      out.body = fillBody ∧ SlotSafe m table out := by
  have hsome : (compileUnit fillUnit (some 0)).toOption.isSome = true := by decide +kernel
  have hflat : ((lowerUnit fillUnit).toOption.bind (·.methods[1]?)).map
      (fun m => (m.name, m.isStatic, m.steps[0]?.map (·.id),
        (LiveRow.liveInAt (Liveness.analyze m).rows 1).toList, SlotTable.extent m (some 0))) =
      some ("fill", false, some 1, ["n"], 3) := by
    decide +kernel
  have hbody : (unitAssembly fillUnit (some 0)).toOption.bind (·.methods[1]?.map (·.body)) =
      some fillBody := by
    decide +kernel
  cases ha : compileUnit fillUnit (some 0) with
  | error e => simp [ha, Except.toOption] at hsome
  | ok a =>
    obtain ⟨cls, tables, asm, hcls, htables, hasm, _, hlen, _, hsafe⟩ :=
      compileUnit_slots_safe fillUnit (some 0) a ha
    have hunit : unitAssembly fillUnit (some 0) = .ok asm :=
      Flat.bind_eq_ok.mpr ⟨cls, hcls, Flat.bind_eq_ok.mpr ⟨tables, htables, hasm⟩⟩
    rw [hunit] at hbody
    rw [hcls] at hflat
    obtain ⟨out, hout, hlines⟩ := Option.map_eq_some_iff.mp hbody
    obtain ⟨m, hm, hfacts⟩ := Option.map_eq_some_iff.mp hflat
    simp only [Prod.mk.injEq] at hfacts
    obtain ⟨hname, hstatic, hfirst, hlive, hextent⟩ := hfacts
    have hlt : 1 < tables.length := by
      rw [hlen]
      exact (List.getElem?_eq_some_iff.mp hm).1
    have hlocals (v : String) (h : HasLocal fillUnit.symbols m.name v) : v = "k" ∨ v = "a" := by
      obtain ⟨symbols, hsymbols, hmem⟩ := h
      rw [hname] at hsymbols
      obtain rfl := Option.some.inj hsymbols
      simpa using hmem
    have hthis : ¬ HasLocal fillUnit.symbols m.name SlotTable.selfName := by
      intro h
      have hcases := hlocals _ h
      revert hcases
      decide
    have hdead : ∀ v, HasLocal fillUnit.symbols m.name v → ¬ (Liveness.analyze m).LiveAt m 0 v := by
      rintro v h ⟨s, hs, hv⟩
      rw [hs] at hfirst
      have hid : s.id = 1 := Option.some.inj hfirst
      rw [hid] at hv
      have hmem : v ∈ ["n"] := hlive ▸ hv
      obtain rfl := List.mem_singleton.mp hmem
      have hcases := hlocals _ h
      revert hcases
      decide
    exact ⟨a, m, tables[1], out, rfl, hname, hstatic, hextent ▸ by decide, hthis, hdead, hlines,
      hsafe 1 m _ out hm (List.getElem?_eq_getElem hlt) hout (hextent ▸ by decide) hthis
        (.inl hstatic) hdead⟩

/-! ### More parameters than slots -/

section Long

open JavaMinus.Lowering (longClass longConstructor longMethod longUnit)

variable {others : List String}

theorem methodDescriptor_long (others : List String) :
    ∃ descriptor, methodDescriptor [] ((longMethod others).params.map (·.ty)) .int =
      .ok descriptor := by
  have htypes : ((longMethod others).params.map (·.ty)).mapM (typeDescriptor []) =
      .ok ((others ++ ["z"]).map fun _ => "I") := by
    rw [longMethod, List.map_map, List.mapM_map]
    exact List.mapM_pure (f := fun _ => "I")
  exact ⟨_, by rw [methodDescriptor, htypes]; rfl⟩

theorem stepLines_return {φ : Frame} {index : Nat} {name : String} {slot : Slot}
    (h : φ.slots.get? name = some slot) :
    ∃ r, (stepLines φ [{ id := 1, instr := .ret (some (.param index name .int)) }]).run {} =
      .ok r := by
  have hslot : φ.slotOf (.param index name .int) = .ok slot.index.toNat := by
    simp only [Frame.slotOf, Operand.name?, Option.getD_some, h]
  simp only [stepLines, instruction, returnLines, load, hslot]
  exact ⟨_, rfl⟩

theorem emit_long {table : SlotTable} {slot : Slot} (h : table.get? "z" = some slot) :
    ∃ out, Method.emit (longClass others) (longMethod others) table = .ok out := by
  obtain ⟨descriptor, hdescriptor⟩ := methodDescriptor_long others
  have hlines : ∃ r, (stepLines ⟨longClass others, longMethod others, table⟩
      (longMethod others).steps).run {} = .ok r := stepLines_return h
  obtain ⟨r, hr⟩ := hlines
  exact ⟨_, Flat.bind_eq_ok.mpr ⟨r, hr, Flat.bind_eq_ok.mpr ⟨descriptor, hdescriptor, rfl⟩⟩⟩

def longTables (others : List String) : List SlotTable :=
  [SlotTable.oneSlotEach longConstructor, SlotTable.oneSlotEach (longMethod others)]

theorem compileUnit_long (h : "z" ∉ others) :
    ∃ a asm out, compileUnit (longUnit others) none = .ok a ∧
      Class.emit (longClass others) (longTables others) = .ok asm ∧ asm.methods[1]? = some out ∧
      out.localsLimit ≤ 65535 := by
  have hparam : "z" ∈ (longMethod others).params.map (·.name) := by simp [longMethod]
  have htable : SlotTable.forMethod (longMethod others) none =
      .ok (SlotTable.oneSlotEach (longMethod others)) := rfl
  obtain ⟨slot, hslot⟩ := SlotTable.forMethod_defined htable (.inr hparam)
  obtain ⟨out, hout⟩ : ∃ out, Method.emit (longClass others) (longMethod others)
    (SlotTable.oneSlotEach (longMethod others)) = .ok out := emit_long hslot
  have hfirst : ∃ first, Method.emit (longClass others) longConstructor
      (SlotTable.oneSlotEach longConstructor) = .ok first := ⟨_, rfl⟩
  obtain ⟨first, hfirst⟩ := hfirst
  have hmethods : ((longClass others).methods.zip (longTables others)).mapM
      (fun p => Method.emit (longClass others) p.1 p.2) = .ok [first, out] := by
    show (do
      let a ← Method.emit (longClass others) longConstructor _
      let b ← Method.emit (longClass others) (longMethod others) _
      pure [a, b] : Except Error (List Method)) = _
    rw [hfirst, hout]
    rfl
  have hemit : ∃ asm, Class.emit (longClass others) (longTables others) = .ok asm ∧
      asm.methods = [first, out] :=
    ⟨_, Flat.bind_eq_ok.mpr ⟨(), rfl, Flat.bind_eq_ok.mpr ⟨[], rfl,
      Flat.bind_eq_ok.mpr ⟨_, hmethods, rfl⟩⟩⟩, rfl⟩
  obtain ⟨asm, hasm, hlist⟩ := hemit
  refine ⟨_, asm, out, Flat.bind_eq_ok.mpr ⟨_, Lowering.lowerUnit_long h,
    Flat.bind_eq_ok.mpr ⟨_, rfl, Flat.bind_eq_ok.mpr ⟨asm, hasm, rfl⟩⟩⟩, hasm, ?_, ?_⟩
  · rw [hlist]
    rfl
  · rw [localsLimit_emit hout]
    exact SlotTable.localsLimit_le _

/-- The limit of a frame cannot cover more slots than have numbers. -/
theorem not_forall_compileUnit_slots_safe :
    ¬ ∀ (u : CompilationUnit) (limit : Option Nat) (a : Artifacts), compileUnit u limit = .ok a →
      ∀ (cls : Flat.Class) (tables : List SlotTable) (asm : Class), lowerUnit u = .ok cls →
      slotTables cls limit = .ok tables → Class.emit cls tables = .ok asm →
      ∀ (k : Nat) (m : Flat.Method) (table : SlotTable) (out : Method), cls.methods[k]? = some m →
        tables[k]? = some table → asm.methods[k]? = some out →
        ¬ HasLocal u.symbols m.name SlotTable.selfName →
        (m.isStatic = false ∨
          ∀ s ∈ m.steps, ∀ op ∈ s.instr.mentions, ∀ name, op ≠ .self name) →
        (∀ v, HasLocal u.symbols m.name v → ¬ (Liveness.analyze m).LiveAt m 0 v) →
        SlotSafe m table out := by
  intro h
  have hlast := Lowering.not_mem_manyNames 65535
  have hlength := Lowering.length_manyNames 65535
  generalize Lowering.manyNames 65535 = others at hlast hlength
  obtain ⟨a, asm, out, ha, hasm, hout, hlimit⟩ := compileUnit_long hlast
  have hlocals (v : String) : ¬ HasLocal (longUnit others).symbols "last" v := by
    rintro ⟨symbols, hsymbols, hmem⟩
    obtain rfl := Option.some.inj hsymbols
    cases hmem
  have hsafe := h (longUnit others) none a ha (longClass others) (longTables others) asm
    (Lowering.lowerUnit_long hlast) rfl hasm 1 (longMethod others) _ out rfl rfl hout (hlocals _)
    (.inl rfl) fun v hv => absurd hv (hlocals v)
  have hparams : (longMethod others).params.length = 65536 := by
    simp [longMethod, hlength]
  have hframe := hsafe.frame
  omega

end Long

end JavaMinus.Assembly
