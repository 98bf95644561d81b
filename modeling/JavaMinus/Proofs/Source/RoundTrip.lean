import JavaMinus.Compile
import JavaMinus.Proofs.Json.Text
import JavaMinus.Source.Decoding
import Mathlib.Data.List.Nodup

/-!
# Decoding a unit undoes encoding it

Every record and node of a unit is read back from what was written for it, field by field. Nothing
is lost to defaults, since all fields are written. Statements and expressions come back from any
depth; only the room that the reader has for nesting bounds them, and a unit within that room is read
back whole.
-/

namespace JavaMinus.Source

open JavaMinus (Json)

/-! ### Fields -/

section Fields

variable {α β γ : Type}

/-- Written fields have different names, so all of them are known. -/
theorem select_named {names : List String} {fields : List (String × α)}
    (h : (fields.map (·.1)).Nodup) : (Shape.named fields).select names = some fields := by
  have hcount : (names.all fun n => fields.countP (fun f => f.1 == n) ≤ 1) = true := by
    rw [List.all_eq_true]
    intro n _
    have hle := List.nodup_iff_count_le_one.mp h n
    rw [List.count, List.countP_map] at hle
    exact decide_eq_true hle
  simp only [Shape.select, hcount, if_true]

/-! Each step of a reader takes one field, and the rest of the reader goes on with its value. -/

theorem recordFields_bind {names : List String} {fields : List (String × Json)}
    {rest : List (String × Json) → Option β} {b : β} (hnames : (fields.map (·.1)).Nodup)
    (hrest : rest fields = some b) : (recordFields names (.obj fields) >>= rest) = some b := by
  rw [show recordFields names (.obj fields) = some fields from select_named hnames]
  exact hrest

theorem required_bind {fields : List (String × α)} {name : String} {read : α → Option β} {a : α}
    {b : β} {rest : β → Option γ} {result : γ} (hfield : fields.lookup name = some a)
    (hread : read a = some b) (hrest : rest b = some result) :
    (required fields name read >>= rest) = some result := by
  rw [required, hfield, Option.bind_some, hread]
  exact hrest

theorem defaulted_bind {fields : List (String × α)} {name : String} {default : β}
    {read : α → Option β} {a : α} {b : β} {rest : β → Option γ} {result : γ}
    (hfield : fields.lookup name = some a) (hread : read a = some b)
    (hrest : rest b = some result) : (defaulted fields name default read >>= rest) = some result := by
  simp only [defaulted, hfield, hread]
  exact hrest

/-- A list is read back if each of its members is. -/
theorem readList_map {read : Json → Option β} {write : β → Json} {xs : List β}
    (h : ∀ x ∈ xs, read (write x) = some x) : readList read (.arr (xs.map write)) = some xs := by
  show (xs.map write).mapM read = some xs
  induction xs with
  | nil => rfl
  | cons x xs ih =>
    rw [List.map_cons, List.mapM_cons, h x List.mem_cons_self,
      ih fun y hy => h y (List.mem_cons_of_mem x hy)]
    rfl

end Fields

/-! ### Scalars -/

theorem readInt32_toInt (v : Int32) : readInt32 (.int v.toInt) = some v := by
  have hrange : Int32.minValue.toInt ≤ v.toInt ∧ v.toInt ≤ Int32.maxValue.toInt :=
    ⟨Int32.minValue_le_toInt v, Int32.toInt_le v⟩
  unfold readInt32
  simp only [hrange, and_self, if_true, Int32.ofInt_toInt]

theorem readUInt32_toNat (n : UInt32) : readUInt32 (.int n.toNat) = some n := by
  have hlt := n.toNat_lt
  unfold readUInt32
  simp only
  rw [if_pos (by omega), Int.toNat_natCast, UInt32.ofNat_toNat]

theorem readOptional_text (s : Option String) :
    readOptional readText (optionalText s) = some s := by
  cases s <;> rfl

theorem Span.ofJson?_toJson (s : Span) : Span.ofJson? s.toJson = some s := by
  refine recordFields_bind (by simp) ?_
  refine required_bind rfl (readUInt32_toNat s.start) ?_
  refine required_bind rfl (readUInt32_toNat s.stop) ?_
  rfl

theorem Access.ofJson?_toJson (a : Access) : Access.ofJson? a.toJson = some a := by
  cases a <;> simp [Access.ofJson?, Access.toJson, readTag, Access.unitName, Access.keyword?]

theorem BinOp.ofNodeJson?_toJson (op : BinOp) : BinOp.ofNodeJson? op.toJson = some op := by
  cases op <;> simp [BinOp.ofNodeJson?, BinOp.ofJson?, BinOp.toJson, readTag, BinOp.ofSymbol?,
    BinOp.all, BinOp.symbol]

theorem Level.ofJson?_toJson (l : Level) : Level.ofJson? l.toJson = some l := by
  cases l <;> simp [Level.ofJson?, Level.toJson, readTag, Level.text]

/-! ### Statements and expressions -/

namespace Reading

@[simp] theorem json_of (j : Json) : (of j).json = j := by
  cases j <;> rfl

@[simp] theorem names_ofFields (fields : List (String × Json)) :
    (ofFields fields).map (·.1) = fields.map (·.1) := by
  induction fields with
  | nil => rfl
  | cons f fields ih => rw [ofFields, List.map_cons, List.map_cons, ih]

/-- The parts of a written node: its kind comes first, and its fields have other names. -/
theorem nodeOf_named {kind : String} {fields : List (String × Json)}
    (h : "kind" ∉ fields.map (·.1)) :
    nodeOf (.named (ofFields (("kind", .str kind) :: fields))) =
      some (.str kind, .named (ofFields (("kind", .str kind) :: fields))) := by
  have hrest : (ofFields fields).filter (fun f => f.1 == "kind") = [] := by
    rw [List.filter_eq_nil_iff]
    intro f hf heq
    apply h
    rw [← names_ofFields, List.mem_map]
    exact ⟨f, hf, by simpa using heq⟩
  simp only [nodeOf, ofFields, List.filter_cons, beq_self_eq_true, if_true, hrest, json_of]

/-- What is known of the parts of a written node. -/
structure Written (kind : String) (s : Span) (parts : List (String × Reading)) : Prop where
  node : nodeOf (.named parts) = some (.str kind, .named parts)
  span : spanOf parts = some s
  select : ∀ names, (Shape.named parts).select names = some parts

theorem written {kind : String} {s : Span} {fields : List (String × Json)}
    (hnames : ("kind" :: "span" :: fields.map (·.1)).Nodup) :
    Written kind s (ofFields (("kind", .str kind) :: ("span", s.toJson) :: fields)) where
  node := nodeOf_named (List.nodup_cons.mp hnames).1
  span := by
    have hfield : (ofFields (("kind", .str kind) :: ("span", s.toJson) :: fields)).lookup "span" =
        some (of s.toJson) := rfl
    rw [spanOf, defaulted, hfield]
    simp only [json_of, Span.ofJson?_toJson]
  select names := select_named (by rw [names_ofFields]; exact hnames)

/-- A written node means what the reader of its kind makes of its parts. Expressions and statements
are tables `readerOf` of such readers. -/
theorem Written.meaning {β : Type} {kind : String} {s : Span} {parts : List (String × Reading)}
    {kinds names : List String} {readerOf : String → Shape Reading → Option β}
    {read : List (String × Reading) → Span → Option β} {b : β} (h : Written kind s parts)
    (hkind : ∀ shape : Shape Reading, readerOf kind shape =
      shape.select names >>= fun parts => spanOf parts >>= read parts)
    (hread : read parts s = some b) :
    ((nodeOf (.named parts)).bind fun node =>
      (kindOf kinds node.1).bind fun k => readerOf k node.2) = some b := by
  simp only [h.node, Option.bind_some, kindOf, hkind, h.select, Option.bind_eq_bind, h.span]
  exact hread

theorem Written.expr {kind : String} {s : Span} {parts : List (String × Reading)} {json : Json}
    {e : Expr} {names : List String} {read : List (String × Reading) → Span → Option Expr}
    (h : Written kind s parts)
    (hkind : ∀ shape : Shape Reading, exprOf kind shape =
      shape.select names >>= fun parts => spanOf parts >>= read parts)
    (hread : read parts s = some e) : (ofShape json (.named parts)).expr = some e :=
  h.meaning hkind hread

theorem Written.stmt {kind : String} {s : Span} {parts : List (String × Reading)} {json : Json}
    {r : Stmt} {names : List String} {read : List (String × Reading) → Span → Option Stmt}
    (h : Written kind s parts)
    (hkind : ∀ shape : Shape Reading, stmtOf kind shape =
      shape.select names >>= fun parts => spanOf parts >>= read parts)
    (hread : read parts s = some r) : (ofShape json (.named parts)).stmt = some r :=
  h.meaning hkind hread

theorem text_of (s : String) : text (of (.str s)) = some s := rfl

theorem optional_null {β : Type} (read : Reading → Option β) :
    optional read (of .null) = some none := rfl

theorem optional_of {β : Type} {read : Reading → Option β} {j : Json} {b : β}
    (hj : ∃ kind fields, j = .obj (("kind", .str kind) :: fields)) (h : read (of j) = some b) :
    optional read (of j) = some (some b) := by
  obtain ⟨kind, fields, rfl⟩ := hj
  simp only [optional, json_of, h, Option.map_some]

end Reading

open Reading (written text_of optional_null optional_of)

mutual

/-- An expression is read back from what was written for it. -/
theorem expr_of_toJson : ∀ e : Expr, (Reading.of e.toJson).expr = some e
  | .intLit _ v => by
    refine (written (by simp)).expr (fun _ => rfl) ?_
    refine required_bind rfl (readInt32_toInt v) ?_
    rfl
  | .boolLit _ _ => by
    refine (written (by simp)).expr (fun _ => rfl) ?_
    refine required_bind rfl rfl ?_
    rfl
  | .ident _ name => by
    refine (written (by simp)).expr (fun _ => rfl) ?_
    refine required_bind rfl (text_of name) ?_
    rfl
  | .self _ => by
    refine (written (by simp)).expr (fun _ => rfl) ?_
    rfl
  | .paren _ e => by
    refine (written (by simp)).expr (fun _ => rfl) ?_
    refine required_bind rfl (expr_of_toJson e) ?_
    rfl
  | .not _ e => by
    refine (written (by simp)).expr (fun _ => rfl) ?_
    refine required_bind rfl (expr_of_toJson e) ?_
    rfl
  | .binary _ op lhs rhs => by
    refine (written (by simp)).expr (fun _ => rfl) ?_
    refine required_bind rfl (BinOp.ofNodeJson?_toJson op) ?_
    refine required_bind rfl (expr_of_toJson lhs) ?_
    refine required_bind rfl (expr_of_toJson rhs) ?_
    rfl
  | .index _ array index => by
    refine (written (by simp)).expr (fun _ => rfl) ?_
    refine required_bind rfl (expr_of_toJson array) ?_
    refine required_bind rfl (expr_of_toJson index) ?_
    rfl
  | .length _ array => by
    refine (written (by simp)).expr (fun _ => rfl) ?_
    refine required_bind rfl (expr_of_toJson array) ?_
    rfl
  | .call _ receiver method args => by
    refine (written (by simp)).expr (fun _ => rfl) ?_
    refine required_bind rfl (expr_of_toJson receiver) ?_
    refine required_bind rfl (text_of method) ?_
    refine defaulted_bind rfl (exprs_of_toJson args) ?_
    rfl
  | .newArray _ size => by
    refine (written (by simp)).expr (fun _ => rfl) ?_
    refine required_bind rfl (expr_of_toJson size) ?_
    rfl
  | .newObject _ cls => by
    refine (written (by simp)).expr (fun _ => rfl) ?_
    refine required_bind rfl (text_of cls) ?_
    rfl

theorem exprs_of_toJson : ∀ es : List Expr,
    (Reading.of (.arr (Expr.listToJson es))).exprs = some es
  | [] => rfl
  | e :: rest => by
    show (Reading.of e.toJson :: Reading.ofItems (Expr.listToJson rest)).mapM Reading.expr = _
    have hrest : (Reading.ofItems (Expr.listToJson rest)).mapM Reading.expr = some rest :=
      exprs_of_toJson rest
    rw [List.mapM_cons, expr_of_toJson e, hrest]
    rfl

end

/-- A written node is an object that gives its kind first. -/
theorem Expr.toJson_eq (e : Expr) : ∃ kind fields, e.toJson = .obj (("kind", .str kind) :: fields) := by
  cases e <;> exact ⟨_, _, by rw [Expr.toJson]⟩

theorem Stmt.toJson_eq (s : Stmt) : ∃ kind fields, s.toJson = .obj (("kind", .str kind) :: fields) := by
  cases s with
  | branch span cond thenBody elseBody => cases elseBody <;> exact ⟨_, _, by rw [Stmt.toJson]⟩
  | ret span value => cases value <;> exact ⟨_, _, by rw [Stmt.toJson]⟩
  | block | loop | expr | assign | store => exact ⟨_, _, by rw [Stmt.toJson]⟩

mutual

/-- A statement is read back from what was written for it. -/
theorem stmt_of_toJson : ∀ s : Stmt, (Reading.of s.toJson).stmt = some s
  | .block _ body => by
    refine (written (by simp)).stmt (fun _ => rfl) ?_
    refine required_bind rfl (stmts_of_toJson body) ?_
    rfl
  | .branch _ cond thenBody none => by
    refine (written (by simp)).stmt (fun _ => rfl) ?_
    refine required_bind rfl (expr_of_toJson cond) ?_
    refine required_bind rfl (stmt_of_toJson thenBody) ?_
    refine defaulted_bind rfl (optional_null _) ?_
    rfl
  | .branch _ cond thenBody (some elseBody) => by
    refine (written (by simp)).stmt (fun _ => rfl) ?_
    refine required_bind rfl (expr_of_toJson cond) ?_
    refine required_bind rfl (stmt_of_toJson thenBody) ?_
    refine defaulted_bind rfl (optional_of elseBody.toJson_eq (stmt_of_toJson elseBody)) ?_
    rfl
  | .loop _ cond body => by
    refine (written (by simp)).stmt (fun _ => rfl) ?_
    refine required_bind rfl (expr_of_toJson cond) ?_
    refine required_bind rfl (stmt_of_toJson body) ?_
    rfl
  | .expr _ e => by
    refine (written (by simp)).stmt (fun _ => rfl) ?_
    refine required_bind rfl (expr_of_toJson e) ?_
    rfl
  | .assign _ target value => by
    refine (written (by simp)).stmt (fun _ => rfl) ?_
    refine required_bind rfl (text_of target) ?_
    refine required_bind rfl (expr_of_toJson value) ?_
    rfl
  | .store _ target index value => by
    refine (written (by simp)).stmt (fun _ => rfl) ?_
    refine required_bind rfl (text_of target) ?_
    refine required_bind rfl (expr_of_toJson index) ?_
    refine required_bind rfl (expr_of_toJson value) ?_
    rfl
  | .ret _ none => by
    refine (written (by simp)).stmt (fun _ => rfl) ?_
    refine defaulted_bind rfl (optional_null _) ?_
    rfl
  | .ret _ (some value) => by
    refine (written (by simp)).stmt (fun _ => rfl) ?_
    refine defaulted_bind rfl (optional_of value.toJson_eq (expr_of_toJson value)) ?_
    rfl

theorem stmts_of_toJson : ∀ body : List Stmt,
    (Reading.of (.arr (Stmt.listToJson body))).stmts = some body
  | [] => rfl
  | s :: rest => by
    show (Reading.of s.toJson :: Reading.ofItems (Stmt.listToJson rest)).mapM Reading.stmt = _
    have hrest : (Reading.ofItems (Stmt.listToJson rest)).mapM Reading.stmt = some rest :=
      stmts_of_toJson rest
    rw [List.mapM_cons, stmt_of_toJson s, hrest]
    rfl

end

/-! ### Written values are plain -/

theorem natAbs_toNat_lt (n : UInt32) : (n.toNat : Int).natAbs < UInt64.size := by
  have hlt := n.toNat_lt
  have hsize : 4294967296 ≤ UInt64.size := by decide
  omega

theorem natAbs_toInt_lt (v : Int32) : v.toInt.natAbs < UInt64.size := by
  have hlo := Int32.minValue_le_toInt v
  have hhi := Int32.toInt_le v
  have hmin : Int32.minValue.toInt = -2147483648 := by decide
  have hmax : Int32.maxValue.toInt = 2147483647 := by decide
  have hsize : 4294967296 ≤ UInt64.size := by decide
  omega

@[simp] theorem Span.isPlain_toJson (s : Span) : s.toJson.isPlain = true := by
  simp only [Span.toJson, Json.isPlain, Json.plainFields, natAbs_toNat_lt, decide_true, Bool.and_self]

@[simp] theorem isPlain_optionalText (s : Option String) : (optionalText s).isPlain = true := by
  cases s <;> rfl

mutual

theorem Expr.isPlain_toJson : ∀ e : Expr, e.toJson.isPlain = true
  | .intLit _ v => by
    simp [Expr.toJson, Json.isPlain, Json.plainFields, natAbs_toInt_lt]
  | .boolLit .. | .ident .. | .self _ | .newObject .. => by
    simp [Expr.toJson, Json.isPlain, Json.plainFields]
  | .paren _ e | .not _ e | .length _ e | .newArray _ e => by
    simp [Expr.toJson, Json.isPlain, Json.plainFields, Expr.isPlain_toJson e]
  | .binary _ _ lhs rhs => by
    simp [Expr.toJson, BinOp.toJson, Json.isPlain, Json.plainFields, Expr.isPlain_toJson lhs,
      Expr.isPlain_toJson rhs]
  | .index _ array position => by
    simp [Expr.toJson, Json.isPlain, Json.plainFields, Expr.isPlain_toJson array,
      Expr.isPlain_toJson position]
  | .call _ receiver _ args => by
    simp [Expr.toJson, Json.isPlain, Json.plainFields, Expr.isPlain_toJson receiver,
      Expr.plainItems_listToJson args]

theorem Expr.plainItems_listToJson : ∀ es : List Expr, Json.plainItems (Expr.listToJson es) = true
  | [] => rfl
  | e :: rest => by
    rw [Expr.listToJson, Json.plainItems, Expr.isPlain_toJson e, Expr.plainItems_listToJson rest]
    rfl

end

mutual

theorem Stmt.isPlain_toJson : ∀ s : Stmt, s.toJson.isPlain = true
  | .block _ body => by
    simp [Stmt.toJson, Json.isPlain, Json.plainFields, Stmt.plainItems_listToJson body]
  | .branch _ cond thenBody (some elseBody) => by
    simp [Stmt.toJson, Json.isPlain, Json.plainFields, cond.isPlain_toJson,
      Stmt.isPlain_toJson thenBody, Stmt.isPlain_toJson elseBody]
  | .branch _ cond thenBody none => by
    simp [Stmt.toJson, Json.isPlain, Json.plainFields, cond.isPlain_toJson,
      Stmt.isPlain_toJson thenBody]
  | .loop _ cond body => by
    simp [Stmt.toJson, Json.isPlain, Json.plainFields, cond.isPlain_toJson, Stmt.isPlain_toJson body]
  | .expr _ e => by
    simp [Stmt.toJson, Json.isPlain, Json.plainFields, e.isPlain_toJson]
  | .assign _ _ value | .ret _ (some value) => by
    simp [Stmt.toJson, Json.isPlain, Json.plainFields, value.isPlain_toJson]
  | .store _ _ index value => by
    simp [Stmt.toJson, Json.isPlain, Json.plainFields, index.isPlain_toJson, value.isPlain_toJson]
  | .ret _ none => by
    simp [Stmt.toJson, Json.isPlain, Json.plainFields]

theorem Stmt.plainItems_listToJson : ∀ body : List Stmt,
    Json.plainItems (Stmt.listToJson body) = true
  | [] => rfl
  | s :: rest => by
    rw [Stmt.listToJson, Json.plainItems, Stmt.isPlain_toJson s, Stmt.plainItems_listToJson rest]
    rfl

end

theorem Stmt.listToJson_eq (body : List Stmt) : Stmt.listToJson body = body.map Stmt.toJson := by
  induction body with
  | nil => rfl
  | cons s rest ih => rw [Stmt.listToJson, List.map_cons, ih]

/-- The items of a written list are plain if each of them is. -/
theorem plainItems_map {α : Type} {write : α → Json} (h : ∀ x, (write x).isPlain = true)
    (xs : List α) : Json.plainItems (xs.map write) = true := by
  rw [Json.plainItems_iff]
  intro j hj
  obtain ⟨x, _, rfl⟩ := List.mem_map.mp hj
  exact h x

theorem plainItems_texts (texts : List String) : Json.plainItems (texts.map .str) = true :=
  plainItems_map (fun _ => rfl) texts

theorem Method.isPlain_toJson (m : Method) : m.toJson.isPlain = true := by
  simp [Method.toJson, Access.toJson, Json.isPlain, Json.plainFields, Stmt.plainItems_listToJson]

theorem Class.isPlain_toJson (c : Class) : c.toJson.isPlain = true := by
  simp [Class.toJson, Json.isPlain, Json.plainFields, plainItems_map Method.isPlain_toJson]

theorem Import.isPlain_toJson (i : Import) : i.toJson.isPlain = true := by
  simp [Import.toJson, Json.isPlain, Json.plainFields, plainItems_texts]

theorem Program.isPlain_toJson (p : Program) : p.toJson.isPlain = true := by
  simp [Program.toJson, Json.isPlain, Json.plainFields, p.cls.isPlain_toJson,
    plainItems_map Import.isPlain_toJson]

theorem Symbol.isPlain_toJson (s : Symbol) : s.toJson.isPlain = true := rfl

theorem MethodSymbols.isPlain_toJson (m : MethodSymbols) : m.toJson.isPlain = true := by
  simp [MethodSymbols.toJson, TypeName.toJson, Json.isPlain, Json.plainFields,
    plainItems_map Symbol.isPlain_toJson]

theorem SymbolTable.isPlain_toJson (t : SymbolTable) : t.toJson.isPlain = true := by
  simp [SymbolTable.toJson, Json.isPlain, Json.plainFields, plainItems_texts,
    plainItems_map Symbol.isPlain_toJson, plainItems_map MethodSymbols.isPlain_toJson]

theorem Report.isPlain_toJson (r : Report) : r.toJson.isPlain = true := by
  obtain ⟨level, message, _ | span⟩ := r
  · rfl
  · simp [Report.toJson, Level.toJson, Json.isPlain, Json.plainFields]

theorem CompilationUnit.isPlain_toJson (u : CompilationUnit) : u.toJson.isPlain = true := by
  simp [CompilationUnit.toJson, Json.isPlain, Json.plainFields, u.program.isPlain_toJson,
    u.symbols.isPlain_toJson, plainItems_map Report.isPlain_toJson]

/-! ### Units

A body nests as deep as its source does, so from the statements up to the class a record is read
back within the room it fits in. -/

theorem Stmt.ofJson?_toJson {s : Stmt} {room : Nat} (h : s.toJson.depth ≤ room) :
    Stmt.ofJson? room s.toJson = some s := by
  have hfits := Json.fits_of_depth s.toJson room s.isPlain_toJson h
  have hkind : Reading.namesKind s.toJson = true := by
    obtain ⟨kind, fields, heq⟩ := s.toJson_eq
    rw [heq]
    rfl
  simp only [Stmt.ofJson?, hfits, hkind, Bool.and_self, if_true, stmt_of_toJson]

/-- The items of a written list that nests at most `room + 1` deep nest at most `room` deep. -/
theorem depth_of_mem_map {α : Type} {write : α → Json} {xs : List α} {room : Nat}
    (h : (Json.arr (xs.map write)).depth ≤ room) :
    ∀ x ∈ xs, (write x).depth ≤ room - 1 := by
  intro x hx
  rw [Json.depth] at h
  exact Json.depthItems_le_iff.mp (by omega) (write x) (List.mem_map_of_mem hx)

theorem Method.ofJson?_toJson {m : Method} {room : Nat} (h : m.toJson.depth ≤ room) :
    Method.ofJson? room m.toJson = some m := by
  rw [Method.toJson, Stmt.listToJson_eq] at h ⊢
  have hbody : ∀ s ∈ m.body, s.toJson.depth ≤ room - 1 - 1 := by
    refine depth_of_mem_map ?_
    simp only [Json.depth, Json.depthFields] at h ⊢
    omega
  refine recordFields_bind (by simp) ?_
  refine defaulted_bind rfl m.span.ofJson?_toJson ?_
  refine defaulted_bind rfl m.access.ofJson?_toJson ?_
  refine defaulted_bind rfl rfl ?_
  refine required_bind rfl rfl ?_
  refine defaulted_bind rfl (readList_map fun s hs => Stmt.ofJson?_toJson (hbody s hs)) ?_
  rfl

theorem Class.ofJson?_toJson {c : Class} {room : Nat} (h : c.toJson.depth ≤ room) :
    Class.ofJson? room c.toJson = some c := by
  have hmethods : ∀ m ∈ c.methods, m.toJson.depth ≤ room - 1 - 1 := by
    refine depth_of_mem_map ?_
    simp only [Class.toJson, Json.depth, Json.depthFields] at h ⊢
    omega
  refine recordFields_bind (by simp) ?_
  refine defaulted_bind rfl c.span.ofJson?_toJson ?_
  refine required_bind rfl rfl ?_
  refine defaulted_bind rfl (readOptional_text c.superClass) ?_
  refine defaulted_bind rfl (readList_map fun m hm => Method.ofJson?_toJson (hmethods m hm)) ?_
  rfl

theorem Import.ofJson?_toJson (i : Import) : Import.ofJson? i.toJson = some i := by
  refine recordFields_bind (by simp) ?_
  refine defaulted_bind rfl i.span.ofJson?_toJson ?_
  refine required_bind rfl (readList_map fun _ _ => rfl) ?_
  rfl

theorem Program.ofJson?_toJson {p : Program} {room : Nat} (h : p.toJson.depth ≤ room) :
    Program.ofJson? room p.toJson = some p := by
  have hclass : p.cls.toJson.depth ≤ room - 1 := by
    simp only [Program.toJson, Json.depth, Json.depthFields] at h
    omega
  refine recordFields_bind (by simp) ?_
  refine defaulted_bind rfl (readList_map fun i _ => i.ofJson?_toJson) ?_
  refine required_bind rfl (Class.ofJson?_toJson hclass) ?_
  rfl

theorem TypeName.ofJson?_toJson (t : TypeName) : TypeName.ofJson? t.toJson = some t := by
  refine recordFields_bind (by simp) ?_
  refine required_bind rfl rfl ?_
  refine defaulted_bind rfl rfl ?_
  rfl

theorem Symbol.ofJson?_toJson (s : Symbol) : Symbol.ofJson? s.toJson = some s := by
  refine recordFields_bind (by simp) ?_
  refine required_bind rfl rfl ?_
  refine required_bind rfl s.type.ofJson?_toJson ?_
  rfl

theorem MethodSymbols.ofJson?_toJson (m : MethodSymbols) :
    MethodSymbols.ofJson? m.toJson = some m := by
  refine recordFields_bind (by simp) ?_
  refine required_bind rfl rfl ?_
  refine required_bind rfl m.returnType.ofJson?_toJson ?_
  refine defaulted_bind rfl (readList_map fun s _ => s.ofJson?_toJson) ?_
  refine defaulted_bind rfl (readList_map fun s _ => s.ofJson?_toJson) ?_
  rfl

theorem SymbolTable.ofJson?_toJson (t : SymbolTable) : SymbolTable.ofJson? t.toJson = some t := by
  refine recordFields_bind (by simp) ?_
  refine required_bind rfl rfl ?_
  refine defaulted_bind rfl (readOptional_text t.superClass) ?_
  refine defaulted_bind rfl (readList_map fun _ _ => rfl) ?_
  refine defaulted_bind rfl (readList_map fun s _ => s.ofJson?_toJson) ?_
  refine defaulted_bind rfl (readList_map fun m _ => m.ofJson?_toJson) ?_
  rfl

theorem readOptional_span (s : Span) : readOptional Span.ofJson? s.toJson = some (some s) := by
  have hread := s.ofJson?_toJson
  rw [Span.toJson] at hread ⊢
  simp only [readOptional, hread, Option.map_some]

theorem Report.ofJson?_toJson (r : Report) : Report.ofJson? r.toJson = some r := by
  obtain ⟨level, message, span⟩ := r
  refine recordFields_bind (by simp) ?_
  refine required_bind rfl level.ofJson?_toJson ?_
  refine required_bind rfl rfl ?_
  cases span with
  | none => exact defaulted_bind rfl rfl rfl
  | some s => exact defaulted_bind rfl (readOptional_span s) rfl

theorem CompilationUnit.ofJson?_toJson {u : CompilationUnit} (h : u.toJson.depth ≤ maxDepth) :
    CompilationUnit.ofJson? u.toJson = some u := by
  have hprogram : u.program.toJson.depth ≤ maxDepth - 1 := by
    simp only [CompilationUnit.toJson, Json.depth, Json.depthFields] at h
    omega
  refine recordFields_bind (by simp) ?_
  refine required_bind rfl (Program.ofJson?_toJson hprogram) ?_
  refine required_bind rfl u.symbols.ofJson?_toJson ?_
  refine defaulted_bind rfl (readList_map fun r _ => r.ofJson?_toJson) ?_
  rfl

/-- A unit that nests within the bound is read back from its text, and it compiles to the same
artifacts, or fails with the same error, after the trip as before it. -/
theorem CompilationUnit.decode?_encode (u : CompilationUnit) (h : u.toJson.depth ≤ maxDepth) :
    CompilationUnit.decode? u.encode = some u ∧
      ∀ limit, (CompilationUnit.decode? u.encode).map (compileUnit · limit) =
        some (compileUnit u limit) := by
  have hread : CompilationUnit.decode? u.encode = some u := by
    rw [CompilationUnit.decode?, CompilationUnit.encode, Json.parse?_render u.isPlain_toJson]
    exact CompilationUnit.ofJson?_toJson h
  refine ⟨hread, ?_⟩
  intro limit
  rw [hread, Option.map_some]

/-- A unit with text that has to be escaped, numbers at the ends of their ranges, and options that
are absent. -/
def escapedUnit : CompilationUnit where
  program :=
    { imports := [{ path := ["io", "Konsole\u00e9"] }]
      cls :=
        { name := "Say\"\\"
          methods :=
            [{ span := ⟨0, 4294967295⟩, access := .pub, name := "tab\t\x01"
               body :=
                [.loop {} (.not {} (.boolLit {} false))
                  (.block {} [.branch {} (.ident {} "x") (.expr {} (.intLit {} (-2147483648))) none,
                    .ret {} none])] }] } }
  symbols :=
    { className := "Say\"\\", imports := ["io.Konsole\u00e9"]
      methods := [{ name := "tab\t\x01", returnType := { name := "void" } }] }
  reports := [{ level := .warning, message := "\n\x7f" }]

theorem CompilationUnit.decode?_encode_escaped :
    escapedUnit.toJson.depth = 13 ∧ CompilationUnit.decode? escapedUnit.encode = some escapedUnit := by
  have hdepth : escapedUnit.toJson.depth = 13 := by decide
  have hle : escapedUnit.toJson.depth ≤ maxDepth := by
    rw [hdepth]
    decide
  exact ⟨hdepth, (CompilationUnit.decode?_encode escapedUnit hle).1⟩

end JavaMinus.Source
