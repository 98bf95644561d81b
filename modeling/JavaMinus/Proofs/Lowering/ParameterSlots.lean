import JavaMinus.Proofs.Compilation
import JavaMinus.Proofs.Lowering.FieldOperands
import JavaMinus.Proofs.Slots.Frame

/-!
# Parameter numbers and slots

The number in a parameter operand is found while trees are lowered, from the place of the name in the
symbol table. The slot of the parameter is found later, from the header of the method. Both count the
same list from the same start, so the number is the slot, whether the other variables share slots or
not.
-/

namespace JavaMinus.Lowering

open JavaMinus.Flat (Ty Operand Instr Param Step)
open JavaMinus.Source (CompilationUnit SymbolTable)

section Operands

variable {σ : Scope} {index : Nat} {name : String} {ty : Ty}

/-- A name that stands for a parameter is that of the parameter with this number. -/
theorem resolve?_listed {t : SymbolTable} {method : String} {k : Nat} {sym : Source.Symbol}
    (h : t.resolve? method name = some ⟨.param k, sym⟩) :
    ∃ d, t.method? method = some d ∧ d.parameters[k]? = some sym ∧ sym.name = name := by
  unfold SymbolTable.resolve? at h
  rw [Option.or_eq_some_iff] at h
  rcases h with h | ⟨_, h⟩
  · obtain ⟨d, hd, h⟩ := Option.bind_eq_some_iff.mp h
    rw [Option.or_eq_some_iff] at h
    rcases h with h | ⟨_, h⟩
    · cases (hasLocal_of_local? h).1
    · obtain ⟨j, hj, hlisted, hname⟩ := param?_listed h
      obtain rfl : k = j := Source.Storage.param.inj hj
      exact ⟨d, hd, hlisted, hname⟩
  · obtain ⟨_, _, hfield⟩ := Option.map_eq_some_iff.mp h
    cases hfield

theorem slotOperand?_listed {v : String} (h : σ.slotOperand? v = .ok (some (.param index name ty))) :
    ∃ k d sym, index = σ.paramIndex k ∧ σ.symbols.method? σ.method = some d ∧
      d.parameters[k]? = some sym ∧ sym.name = name ∧ σ.typeOf sym.type = .ok ty := by
  obtain ⟨b, hb, _, hty⟩ := slotOperand?_type h
  rcases slotOperand?_cases h with ⟨_, _, _, hop⟩ | ⟨k, sym, _, hr, hop⟩
  · cases hop
  · cases hop
    obtain rfl := Option.some.inj (hb.symm.trans hr)
    obtain ⟨d, hd, hlisted, hname⟩ := resolve?_listed hr
    exact ⟨k, d, sym, rfl, hd, hlisted, hname, hty⟩

/-- A field is never named by a parameter operand. -/
theorem FieldsNamed.param_mem_operands {i : Instr} (h : FieldsNamed σ i)
    (hop : .param index name ty ∈ i.mentions) : .param index name ty ∈ i.operands := by
  rcases List.mem_append.mp hop with hop | hop
  · exact hop
  · obtain ⟨_, hfield⟩ := h _ hop
    obtain ⟨_, _, _, hvar⟩ := fieldOperand?_cases hfield
    cases hvar

end Operands

section Methods

variable {σ : Scope} {decl : Source.Method} {m : Flat.Method} {f f' : Fresh} {s : Step}
  {index : Nat} {name : String} {ty : Ty}

/-- A parameter operand has the name and type of the listed parameter that its number counts to. -/
theorem LowersMethod.param_operand (h : LowersMethod σ decl f m f') (hs : s ∈ m.steps)
    (hop : .param index name ty ∈ s.instr.mentions) :
    ∃ k, index = k + SlotTable.base m ∧ m.params[k]? = some { name, ty } := by
  obtain ⟨_, types, hknown⟩ := h.explained (fun _ => trivial) (fun _ => trivial)
  cases h with
  | @method result params body _ _ _ _ hparams hbody hm =>
    have hfields := fieldsNamed_of_assemble hm hbody.fieldsNamed.methodCode hs
    cases hknown s hs _ (hfields.param_mem_operands hop) with
    | slot hslot =>
      obtain ⟨k, d, sym, rfl, hd, hlisted, rfl, hty⟩ := slotOperand?_listed hslot
      have hheader := (Flat.Method.steps_of_assemble hm).1
      refine ⟨k, ?_, ?_⟩
      · rw [SlotTable.base, hheader]
        unfold Scope.paramIndex methodScope methodHeader
        split <;> rfl
      · obtain ⟨p, hp, hname, htype⟩ :=
          exists_getElem?_of_forall₂ (methodParams_listed hd hparams) hlisted
        have hty : p.ty = ty := Except.ok.inj (htype.symm.trans hty)
        rw [hheader, methodHeader, hp]
        exact congrArg some (congrArg₂ Param.mk hname.symm hty)

theorem LowersMethod.params_nodup (h : LowersMethod σ decl f m f')
    (hdistinct : ∀ d, σ.symbols.method? decl.name = some d → (d.parameters.map (·.name)).Nodup) :
    (m.params.map (·.name)).Nodup := by
  cases h with
  | @method result params body _ _ _ _ hparams _ hm =>
    rw [(Flat.Method.steps_of_assemble hm).1]
    cases hd : σ.symbols.method? decl.name with
    | none =>
      unfold methodParams at hparams
      rw [hd] at hparams
      obtain rfl := Except.ok.inj hparams
      exact List.nodup_nil
    | some d =>
      show (params.map (·.name)).Nodup
      rw [← methodParams_map_name hd hparams]
      exact hdistinct d hd

theorem defaultConstructor_no_param (h : defaultConstructor σ = .ok m) (hs : s ∈ m.steps) :
    .param index name ty ∉ s.instr.mentions := by
  intro hop
  have hfields : FieldsNamed σ s.instr := fieldsNamed_of_assemble h (CodeFieldsNamed.nil.plain rfl) hs
  cases defaultConstructor_explained h hs _ (hfields.param_mem_operands hop)

end Methods

/-- No method of the unit declares two parameters of one name. -/
def DistinctParams (u : CompilationUnit) : Prop :=
  ∀ decl ∈ u.program.cls.methods, ∀ d, u.symbols.method? decl.name = some d →
    (d.parameters.map (·.name)).Nodup

instance (u : CompilationUnit) : Decidable (DistinctParams u) :=
  List.decidableBAll _ _

/-- The number of a parameter operand is the slot of its name, with the name and type of the parameter
that is listed there, and no other name has this slot. Only in a frame of more than 65535 slots it may
differ, where the slots wrap around and the numbers do not. -/
theorem param_number_is_slot (u : CompilationUnit) (cls : Flat.Class) (h : lowerUnit u = .ok cls)
    (hdistinct : DistinctParams u) (m : Flat.Method) (hm : m ∈ cls.methods) (s : Step)
    (hs : s ∈ m.steps) (index : Nat) (name : String) (ty : Ty)
    (hop : .param index name ty ∈ s.instr.mentions) (limit : Option Nat) (table : SlotTable)
    (htable : SlotTable.forMethod m limit = .ok table) (hfit : SlotTable.extent m limit ≤ 65535) :
    (∃ slot, table.get? name = some slot ∧ slot.index.toNat = index ∧ slot.ty = ty) ∧
      (∃ k, index = k + SlotTable.base m ∧ m.params[k]? = some { name, ty }) ∧
      ∀ other slot, table.get? other = some slot → slot.index.toNat = index → other = name := by
  rcases (lowersClass_of_lowerUnit h).method_cases hm with hctor | ⟨decl, hdecl, f, f', hlow⟩
  · exact absurd hop (defaultConstructor_no_param hctor hs)
  · obtain ⟨k, rfl, hk⟩ := hlow.param_operand hs hop
    have hnodup := hlow.params_nodup (hdistinct decl hdecl)
    obtain ⟨hget, hapart⟩ := SlotTable.forMethod_param htable hfit hnodup hk
    have hlt := (List.getElem?_eq_some_iff.mp hk).1
    have hcount := Nat.le_trans (SlotTable.fixedCount_le_extent m limit) hfit
    unfold SlotTable.fixedCount at hcount
    have hindex : (UInt16.ofNat (SlotTable.base m + k)).toNat = k + SlotTable.base m := by
      rw [Nat.add_comm k]
      exact UInt16.toNat_ofNat_of_lt' (show _ < 65536 by omega)
    refine ⟨⟨_, hget, hindex, rfl⟩, ⟨k, rfl, hk⟩, fun other slot hslot heq => ?_⟩
    exact hapart other slot hslot (UInt16.toNat_inj.mp (heq.trans hindex.symm))

/-- `void put(int[] a, int i) { int v; v = i + 1; a[i] = v; }` -/
def putUnit : CompilationUnit where
  program.cls.name := "Row"
  program.cls.methods := [
    { name := "put", access := .pub
      body := [.assign {} "v" (.binary {} .add (.ident {} "i") (.intLit {} 1)),
        .store {} "a" (.ident {} "i") (.ident {} "v")] }]
  symbols.className := "Row"
  symbols.methods := [
    { name := "put", returnType := { name := "void" }
      parameters := [{ name := "a", type := { name := "int", isArray := true } },
        { name := "i", type := { name := "int" } }]
      locals := [{ name := "v", type := { name := "int" } }] }]

/-- The parameter inside the array element keeps its slot when variables share slots. -/
theorem param_number_is_slot_put :
    ∃ cls m table, lowerUnit putUnit = .ok cls ∧ m ∈ cls.methods ∧
      SlotTable.forMethod m (some 0) = .ok table ∧ SlotTable.extent m (some 0) ≤ 65535 ∧
      (∃ slot, table.get? "i" = some slot ∧ slot.index.toNat = 2 ∧ slot.ty = .int) ∧
      ∀ other slot, table.get? other = some slot → slot.index.toNat = 2 → other = "i" := by
  have hlowered : (lowerUnit putUnit).toOption.any (fun cls => cls.methods.any fun m =>
      m.steps.any (fun s => s.instr.mentions.contains (.param 2 "i" .int)) &&
        (SlotTable.forMethod m (some 0)).toOption.isSome &&
        decide (SlotTable.extent m (some 0) ≤ 65535)) = true := by
    decide +kernel
  cases hcls : lowerUnit putUnit with
  | error e => simp [hcls, Except.toOption] at hlowered
  | ok cls =>
    simp only [hcls, Except.toOption, Option.any_some, List.any_eq_true, Bool.and_eq_true,
      List.contains_iff_mem, decide_eq_true_eq] at hlowered
    obtain ⟨m, hm, ⟨⟨s, hs, hop⟩, hsome⟩, hfit⟩ := hlowered
    cases htable : SlotTable.forMethod m (some 0) with
    | error e => simp [htable] at hsome
    | ok table =>
      obtain ⟨hget, _, hapart⟩ := param_number_is_slot putUnit cls hcls (by decide +kernel) m hm s hs
        2 "i" .int hop (some 0) table htable hfit
      exact ⟨cls, m, table, rfl, hm, htable, hfit, hget, hapart⟩

/-! ### More parameters than slots -/

/-- A method with many parameters of type `int`, the last one of them `z`. -/
def longDeclared (others : List String) : Source.MethodSymbols where
  name := "last"
  returnType := { name := "int" }
  parameters := (others ++ ["z"]).map fun name => { name, type := { name := "int" } }

def longSymbols (others : List String) : SymbolTable where
  className := "Long"
  methods := [longDeclared others]

/-- `int last(…, int z) { return z; }` -/
def longDecl : Source.Method where
  name := "last"
  access := .pub
  body := [.ret {} (some (.ident {} "z"))]

def longUnit (others : List String) : CompilationUnit where
  program.cls.name := "Long"
  program.cls.methods := [longDecl]
  symbols := longSymbols others

def longMethod (others : List String) : Flat.Method where
  name := "last"
  access := .pub
  params := (others ++ ["z"]).map fun name => { name, ty := .int }
  returnType := .int
  steps := [{ id := 1, instr := .ret (some (.param (others.length + 1) "z" .int)) }]

def longConstructor : Flat.Method where
  name := "Long"
  access := .pub
  isConstructor := true
  returnType := .void
  steps := [{ id := 1, instr := .call .special (.self "Long") (some "<init>") [] .void }]

def longClass (others : List String) : Flat.Class where
  name := "Long"
  access := .pub
  methods := [longConstructor, longMethod others]

section Long

variable {others : List String}

theorem methodParams_long (others : List String) :
    methodParams { symbols := longSymbols others } longDecl = .ok (longMethod others).params := by
  show List.mapM _ ((others ++ ["z"]).map _) = _
  rw [List.mapM_map]
  exact List.mapM_pure (f := fun name => ({ name, ty := .int } : Flat.Param))

theorem param?_long (h : "z" ∉ others) : (longDeclared others).param? "z" =
    some ⟨.param others.length, { name := "z", type := { name := "int" } }⟩ := by
  have hnone : ((others.map fun name =>
      ({ name, type := { name := "int" } } : Source.Symbol)).zipIdx.find? fun p => p.1.name == "z") =
      none := by
    refine List.find?_eq_none.mpr ?_
    rintro ⟨sym, k⟩ hmem
    obtain ⟨name, hname, rfl⟩ := List.mem_map.mp (List.fst_mem_of_mem_zipIdx hmem)
    rw [beq_iff_eq]
    rintro rfl
    exact h hname
  rw [Source.MethodSymbols.param?, longDeclared, List.map_append, List.zipIdx_append,
    List.find?_append, hnone, List.length_map, Nat.zero_add]
  rfl

theorem lowerStmts_return {σ : Scope} {name : String} {op : Operand}
    (h : σ.slotOperand? name = .ok (some op)) :
    lowerStmts σ [.ret {} (some (.ident {} name))] = pure [.instr (.ret (some op))] := by
  simp only [lowerStmts, lowerStmt, lowerReturn, lowerExpr, lowerName, h]
  rfl

theorem lowerUnit_long (h : "z" ∉ others) : lowerUnit (longUnit others) = .ok (longClass others) := by
  have hslot : (methodScope { symbols := longSymbols others } longDecl .int).slotOperand? "z" =
      .ok (some (.param (others.length + 1) "z" .int)) := by
    have hresolve : (longSymbols others).resolve? "last" "z" =
        ((longDeclared others).param? "z").or none := rfl
    rw [param?_long h] at hresolve
    simp only [Scope.slotOperand?, methodScope, longDecl, hresolve]
    rfl
  have hmethod : lowerMethod { symbols := longSymbols others } longDecl = pure (longMethod others) := by
    unfold lowerMethod
    rw [methodParams_long]
    show (do
      let body ← lowerStmts (methodScope { symbols := longSymbols others } longDecl .int) longDecl.body
      Flat.Method.assemble (longMethod others).toHeader (closeBody .int ([] ++ body)) :
        LowerM Flat.Method) = _
    rw [show lowerStmts _ longDecl.body = _ from lowerStmts_return hslot]
    rfl
  unfold lowerUnit lowerProgram lowerMethods
  simp only [longUnit, List.mapM_cons, List.mapM_nil, hmethod]
  rfl

theorem distinctParams_long (h : "z" ∉ others) (hnodup : others.Nodup) :
    DistinctParams (longUnit others) := by
  intro decl hdecl d hd
  obtain rfl := List.mem_singleton.mp hdecl
  obtain rfl := Option.some.inj hd
  have hnames : (longDeclared others).parameters.map (·.name) = others ++ ["z"] := by
    rw [longDeclared, List.map_map]
    exact List.map_id _
  rw [hnames, List.nodup_append]
  exact ⟨hnodup, List.nodup_singleton _, fun a ha b hb heq => h (List.mem_singleton.mp hb ▸ heq ▸ ha)⟩

end Long

def manyNames (n : Nat) : List String :=
  ((List.range n).map fun k => tempName (10000 + k)).reverse

theorem length_manyNames (n : Nat) : (manyNames n).length = n := by
  simp [manyNames]

theorem nodup_manyNames (n : Nat) : (manyNames n).Nodup := by
  refine List.nodup_reverse.mpr (List.nodup_range.map fun j k heq => ?_)
  exact Nat.add_left_cancel (tempName_inj heq)

theorem not_mem_manyNames (n : Nat) : "z" ∉ manyNames n := by
  intro hmem
  obtain ⟨k, _, hname⟩ := List.mem_map.mp (List.mem_reverse.mp hmem)
  have hlist := congrArg String.toList hname
  simp [tempName] at hlist

/-- The number of a parameter may be one that no slot has. -/
theorem not_forall_param_number_is_slot :
    ¬ ∀ (u : CompilationUnit) (cls : Flat.Class), lowerUnit u = .ok cls → DistinctParams u →
      ∀ m ∈ cls.methods, ∀ s ∈ m.steps, ∀ index name ty, .param index name ty ∈ s.instr.mentions →
      ∀ limit table, SlotTable.forMethod m limit = .ok table →
        (∃ slot, table.get? name = some slot ∧ slot.index.toNat = index ∧ slot.ty = ty) ∧
          (∃ k, index = k + SlotTable.base m ∧ m.params[k]? = some { name, ty }) ∧
          ∀ other slot, table.get? other = some slot → slot.index.toNat = index → other = name := by
  intro h
  have hlast := not_mem_manyNames 65535
  have hlength := length_manyNames 65535
  have hnodup := nodup_manyNames 65535
  generalize manyNames 65535 = others at hlast hlength hnodup
  obtain ⟨⟨slot, -, hindex, -⟩, -⟩ := h (longUnit others) (longClass others) (lowerUnit_long hlast)
    (distinctParams_long hlast hnodup) (longMethod others) (List.mem_of_getElem? (i := 1) rfl) _
    (List.mem_singleton_self _) (others.length + 1) "z" .int (List.mem_singleton_self _) none _ rfl
  have hlt := slot.index.toNat_lt
  omega

end JavaMinus.Lowering
