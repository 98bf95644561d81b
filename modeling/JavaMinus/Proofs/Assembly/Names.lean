import JavaMinus.Proofs.Assembly.Derivation
import JavaMinus.Proofs.Assembly.Machine

/-!
# Names in assembly

Assembly text parts names by a few characters. Where no name of the flat code holds one of them, every
class that the lines refer to is written as a path, and the descriptor of a method tells how many
arguments it takes and whether it leaves a value.
-/

namespace JavaMinus.Assembly

open JavaMinus.Flat (Ty Operand Instr Invocation bind_eq_ok pure_eq_ok forall₂_of_mapM)

/-! ### Names -/

/-- The characters that stand between names. -/
def separators : List Char :=
  [' ', '\t', '\n', ':', ';', '/', '(']

/-- Every identifier is a name, and so is the name of constructors. -/
def IsName (s : String) : Prop :=
  ∀ c ∈ s.toList, c ∉ separators

/-- Names with slashes between them. -/
def IsPath (s : String) : Prop :=
  ∀ c ∈ s.toList, c ∈ separators → c = '/'

/-- A piece of text between blanks. -/
def IsWord (s : String) : Prop :=
  ∀ c ∈ s.toList, c ∉ [' ', '\t', '\n']

instance (s : String) : Decidable (IsName s) :=
  List.decidableBAll (· ∉ separators) s.toList

instance (s : String) : Decidable (IsPath s) :=
  List.decidableBAll (fun c => c ∈ separators → c = '/') s.toList

instance (s : String) : Decidable (IsWord s) :=
  List.decidableBAll (· ∉ [' ', '\t', '\n']) s.toList

theorem IsName.isPath {s : String} (h : IsName s) : IsPath s :=
  fun c hc hsep => absurd hsep (h c hc)

theorem IsWord.append {s t : String} (hs : IsWord s) (ht : IsWord t) : IsWord (s ++ t) := by
  intro c hc
  rw [String.toList_append, List.mem_append] at hc
  rcases hc with hc | hc
  · exact hs c hc
  · exact ht c hc

theorem IsPath.isWord {s : String} (h : IsPath s) : IsWord s := by
  intro c hc hblank
  have hsep : c ∈ separators := by
    revert hblank
    simp only [separators, List.mem_cons, List.not_mem_nil, or_false]
    tauto
  have hslash := h c hc hsep
  rw [hslash] at hblank
  revert hblank
  decide

def tyNames : Ty → List String
  | .array elem => tyNames elem
  | .object cls | .classRef cls | .self cls => [cls]
  | .int | .bool | .str | .void => []

def operandNames : Operand → List String
  | .lit _ ty => tyNames ty
  | .var name ty => name :: tyNames ty
  | .param _ name ty => name :: tyNames ty
  | .elem array index ty => operandNames array ++ operandNames index ++ tyNames ty
  | .self cls => [cls]
  | .classRef name => [name]

def instrNames : Instr → List String
  | .assign dest ty rhs => operandNames dest ++ tyNames ty ++ instrNames rhs
  | .binary _ lhs rhs => operandNames lhs ++ operandNames rhs
  | .not op => operandNames op
  | .call _ target method args ret =>
    operandNames target ++ method.toList ++ args.flatMap operandNames ++ tyNames ret
  | .ret value => value.elim [] operandNames
  | .goto label => [label]
  | .branch cond label => instrNames cond ++ [label]
  | .getField object field => operandNames object ++ operandNames field
  | .putField object field value => operandNames object ++ operandNames field ++ operandNames value
  | .single op => operandNames op
  | .nop => []

/-- All names of a class and of the code of one of its methods are names in assembly too. -/
structure Named (c : Flat.Class) (m : Flat.Method) : Prop where
  cls : IsName c.name
  superClass : ∀ s ∈ c.superClass, IsName s
  imports : ∀ path ∈ c.imports, IsName path
  labels : ∀ s ∈ m.steps, ∀ l ∈ s.labels, IsName l
  steps : ∀ s ∈ m.steps, ∀ name ∈ instrNames s.instr, IsName name

theorem tyNames_subset (op : Operand) : ∀ name ∈ tyNames op.ty, name ∈ operandNames op := by
  intro name hname
  cases op with
  | lit => exact hname
  | var | param => exact List.mem_cons_of_mem _ hname
  | elem => exact List.mem_append_right _ hname
  | self | classRef => exact hname

theorem argNames_of_call {invocation : Invocation} {target : Operand} {method : Option String}
    {args : List Operand} {result : Ty}
    (h : ∀ x ∈ instrNames (.call invocation target method args result), IsName x) :
    ∀ op ∈ args, ∀ x ∈ operandNames op, IsName x := by
  intro op hop x hx
  apply h
  simp only [instrNames, List.mem_append]
  exact .inl (.inr (List.mem_flatMap.mpr ⟨op, hop, hx⟩))

/-! ### Classes -/

section Classes

variable {imports : List String}

theorem isPath_slashed {path : String} (h : IsName path) : IsPath (slashed path) := by
  intro c hc hsep
  simp only [slashed, String.toList_map, List.mem_map] at hc
  obtain ⟨d, hd, rfl⟩ := hc
  by_cases hdot : (d == '.') = true
  · rw [if_pos hdot]
  · rw [if_neg hdot] at hsep
    exact absurd hsep (h d hd)

theorem isPath_resolveClass (himports : ∀ path ∈ imports, IsName path) {cls : String}
    (hcls : IsName cls) : IsPath (resolveClass imports cls) := by
  unfold resolveClass
  split
  · next path hpath =>
    exact isPath_slashed (himports path (List.mem_reverse.mp (List.mem_of_find?_eq_some hpath)))
  · exact hcls.isPath

theorem isPath_ownerName {c : Flat.Class} {m : Flat.Method} (h : Named c m) {dispatch : Dispatch}
    {target : Operand} {owner : String} (htarget : ∀ name ∈ operandNames target, IsName name)
    (howner : ownerName? c dispatch target = some owner) : IsPath owner := by
  have hty : ∀ name ∈ tyNames target.ty, IsName name := fun name hname =>
    htarget name (tyNames_subset target name hname)
  have hresolve {cls : String} (hcls : IsName cls) : IsPath (resolveClass c.imports cls) :=
    isPath_resolveClass h.imports hcls
  have hbyType (hown : classOf? c target.ty = some owner) : IsPath owner := by
    cases htarget : target.ty with
    | self cls =>
      obtain rfl : c.name = owner := by simpa [htarget, classOf?] using hown
      exact h.cls.isPath
    | object cls | classRef cls =>
      obtain rfl : resolveClass c.imports cls = owner := by simpa [htarget, classOf?] using hown
      exact hresolve (hty cls (by simp [htarget, tyNames]))
    | int | bool | str | void | array => simp [htarget, classOf?] at hown
  cases dispatch with
  | static =>
    cases target with
    | classRef cls =>
      obtain rfl : resolveClass c.imports cls = owner := by simpa [ownerName?] using howner
      exact hresolve (htarget cls (by simp [operandNames]))
    | lit | var | param | elem | self => simp [ownerName?] at howner
  | virtual => exact hbyType howner
  | special =>
    cases target with
    | self cls =>
      cases hsuper : c.superClass with
      | none =>
        obtain rfl : "java/lang/Object" = owner := by simpa [ownerName?, hsuper] using howner
        decide
      | some s =>
        obtain rfl : resolveClass c.imports s = owner := by simpa [ownerName?, hsuper] using howner
        exact hresolve (h.superClass s hsuper)
    | lit | var | param | elem | classRef => exact hbyType howner

end Classes

/-! ### Descriptors -/

section Descriptors

variable {imports : List String} {ty : Ty} {d : String}

theorem classDescriptor_eq {cls : String} (h : classDescriptor imports cls = .ok d) :
    "L" ++ resolveClass imports cls ++ ";" = d := by
  unfold classDescriptor at h
  split at h
  · cases h
  · simpa using h

theorem typeDescriptor_array {elem : Ty} (h : typeDescriptor imports (.array elem) = .ok d) :
    elem ≠ .void ∧ ∃ e, typeDescriptor imports elem = .ok e ∧ "[" ++ e = d := by
  unfold typeDescriptor at h
  split at h
  · cases h
  · next helem =>
    obtain ⟨e, he, h⟩ := bind_eq_ok.mp h
    exact ⟨helem, e, he, pure_eq_ok.mp h⟩

/-- No class of the type is written with the character that ends the name of a class. -/
def EndsOnce (imports : List String) (ty : Ty) : Prop :=
  ∀ cls ∈ tyNames ty, ';' ∉ (resolveClass imports cls).toList

instance (imports : List String) (ty : Ty) : Decidable (EndsOnce imports ty) :=
  inferInstanceAs (Decidable (∀ cls ∈ tyNames ty, ';' ∉ (resolveClass imports cls).toList))

theorem endsOnce_of_isName (himports : ∀ path ∈ imports, IsName path)
    (hty : ∀ name ∈ tyNames ty, IsName name) : EndsOnce imports ty := by
  intro cls hcls hmem
  have hslash : ';' = '/' := isPath_resolveClass himports (hty cls hcls) ';' hmem (by decide)
  revert hslash
  decide

/-- The types of the parameters stand in parentheses before the type of the result. -/
theorem methodDescriptor_chars {tys : List Ty} {result : Ty}
    (h : methodDescriptor imports tys result = .ok d) :
    ∃ texts r, List.Forall₂ (fun ty text => typeDescriptor imports ty = .ok text) tys texts ∧
      typeDescriptor imports result = .ok r ∧
      d.toList = '(' :: (texts.flatMap String.toList ++ ')' :: r.toList) := by
  unfold methodDescriptor at h
  obtain ⟨texts, htexts, h⟩ := bind_eq_ok.mp h
  obtain ⟨r, hr, h⟩ := bind_eq_ok.mp h
  obtain rfl := pure_eq_ok.mp h
  exact ⟨texts, r, forall₂_of_mapM htexts, hr, by simp [String.toList_join]⟩

theorem splitParams_name {name : List Char} (h : ';' ∉ name) (begun rest : List Char) :
    splitParams true begun (name ++ ';' :: rest) =
      (splitParams false [] rest).map (addParam (begun ++ (name ++ [';']))) := by
  induction name generalizing begun with
  | nil => simp [splitParams]
  | cons c name ih =>
    have hc : c ≠ ';' := by
      rintro rfl
      exact h (List.mem_cons_self ..)
    have hname : ';' ∉ name := fun hmem => h (List.mem_cons_of_mem _ hmem)
    rw [List.cons_append, splitParams, if_neg hc, ih hname, List.append_assoc]
    rfl

/-- A class is written between its letter and the first semicolon. -/
theorem splitParams_class {name : List Char} (h : ';' ∉ name) (begun rest : List Char) :
    splitParams false begun ('L' :: (name ++ [';']) ++ rest) =
      (splitParams false [] rest).map (addParam (begun ++ 'L' :: (name ++ [';']))) := by
  have hletter : splitParams false begun ('L' :: (name ++ ';' :: rest)) =
      splitParams true (begun ++ ['L']) (name ++ ';' :: rest) := by simp [splitParams]
  rw [List.cons_append, List.append_assoc, List.singleton_append, hletter, splitParams_name h,
    List.append_assoc]
  rfl

/-- Each descriptor says itself where it ends. -/
theorem splitParams_type (hty : EndsOnce imports ty) (h : typeDescriptor imports ty = .ok d)
    (begun rest : List Char) :
    splitParams false begun (d.toList ++ rest) =
      (splitParams false [] rest).map (addParam (begun ++ d.toList)) := by
  induction ty generalizing d begun with
  | int | bool | void =>
    cases h
    simp [splitParams]
  | str =>
    cases h
    have hname : ';' ∉ "java/lang/String".toList := by decide
    exact splitParams_class hname begun rest
  | array elem ih =>
    obtain ⟨_, e, he, rfl⟩ := typeDescriptor_array h
    have hlist : ("[" ++ e).toList = '[' :: e.toList := by simp
    have hbracket : splitParams false begun ('[' :: (e.toList ++ rest)) =
        splitParams false (begun ++ ['[']) (e.toList ++ rest) := by simp [splitParams]
    rw [hlist, List.cons_append, hbracket, ih hty he, List.append_assoc]
    rfl
  | object cls | classRef cls | self cls =>
    obtain rfl := classDescriptor_eq h
    have hname : ';' ∉ (resolveClass imports cls).toList := hty cls (List.mem_singleton_self cls)
    simpa using splitParams_class hname begun rest

theorem splitParams_params {tys : List Ty} {texts : List String}
    (hends : ∀ ty ∈ tys, EndsOnce imports ty)
    (h : List.Forall₂ (fun ty d => typeDescriptor imports ty = .ok d) tys texts)
    (result : List Char) :
    splitParams false [] (texts.flatMap String.toList ++ ')' :: result) =
      some (texts.map String.toList, result) := by
  induction h with
  | nil => simp [splitParams]
  | cons hd _ ih =>
    rw [List.forall_mem_cons] at hends
    rw [List.flatMap_cons, List.append_assoc, splitParams_type hends.1 hd, ih hends.2]
    rfl

/-- The text of a signature determines the descriptors it was made of. -/
theorem splitMethod?_descriptor {tys : List Ty} {result : Ty}
    (hends : ∀ ty ∈ tys, EndsOnce imports ty) (h : methodDescriptor imports tys result = .ok d) :
    ∃ texts r, List.Forall₂ (fun ty text => typeDescriptor imports ty = .ok text) tys texts ∧
      typeDescriptor imports result = .ok r ∧
      splitMethod? d = some (texts.map String.toList, r.toList) := by
  obtain ⟨texts, r, htexts, hr, hchars⟩ := methodDescriptor_chars h
  refine ⟨texts, r, htexts, hr, ?_⟩
  simp only [splitMethod?, hchars]
  exact splitParams_params hends htexts r.toList

theorem isWord_typeDescriptor (himports : ∀ path ∈ imports, IsName path)
    (hty : ∀ name ∈ tyNames ty, IsName name) (h : typeDescriptor imports ty = .ok d) : IsWord d := by
  have hclass {cls text : String} (hcls : IsName cls) (h : classDescriptor imports cls = .ok text) :
      IsWord text := by
    obtain rfl := classDescriptor_eq h
    have hpath := (isPath_resolveClass himports hcls).isWord
    exact (IsWord.append (by decide) hpath).append (by decide)
  induction ty generalizing d with
  | int | bool | void | str =>
    cases h
    decide
  | array elem ih =>
    obtain ⟨_, e, he, rfl⟩ := typeDescriptor_array h
    exact IsWord.append (by decide) (ih hty he)
  | object cls | classRef cls | self cls => exact hclass (hty cls (by simp [tyNames])) h

theorem isWord_params (himports : ∀ path ∈ imports, IsName path) {tys : List Ty}
    {texts : List String} (hnames : ∀ ty ∈ tys, ∀ name ∈ tyNames ty, IsName name)
    (h : List.Forall₂ (fun ty d => typeDescriptor imports ty = .ok d) tys texts) :
    ∀ text ∈ texts, IsWord text := by
  induction h with
  | nil => simp
  | cons hd _ ih =>
    rw [List.forall_mem_cons] at hnames ⊢
    exact ⟨isWord_typeDescriptor himports hnames.1 hd, ih hnames.2⟩

theorem isWord_methodDescriptor (himports : ∀ path ∈ imports, IsName path) {tys : List Ty}
    {result : Ty} (hnames : ∀ ty ∈ tys, ∀ name ∈ tyNames ty, IsName name)
    (hresult : ∀ name ∈ tyNames result, IsName name)
    (h : methodDescriptor imports tys result = .ok d) :
    IsWord d ∧ ∃ params, d.toList = '(' :: params := by
  unfold methodDescriptor at h
  obtain ⟨texts, htexts, h⟩ := bind_eq_ok.mp h
  obtain ⟨r, hr, h⟩ := bind_eq_ok.mp h
  obtain rfl := pure_eq_ok.mp h
  have hwords := isWord_params himports hnames (forall₂_of_mapM htexts)
  have hjoin : IsWord (String.join texts) := by
    intro c hc
    rw [String.toList_join, List.mem_flatMap] at hc
    obtain ⟨text, htext, hc⟩ := hc
    exact hwords text htext c hc
  have hr := isWord_typeDescriptor himports hresult hr
  refine ⟨((IsWord.append (by decide) hjoin).append (by decide)).append hr, ?_⟩
  exact ⟨_, by simp; rfl⟩

theorem typeDescriptor_void (h : typeDescriptor imports ty = .ok d) :
    (d.toList == ['V']) = decide (ty = .void) := by
  have hclass {cls : String} (hcls : classDescriptor imports cls = .ok d) :
      (d.toList == ['V']) = false := by
    obtain rfl := classDescriptor_eq hcls
    simp
  cases ty with
  | int | bool | str | void =>
    cases h
    decide
  | array elem =>
    obtain ⟨_, e, _, rfl⟩ := typeDescriptor_array h
    simp
  | object cls | classRef cls | self cls => simpa using hclass h

/-- The descriptor of a method tells its parameters and whether it leaves a value. -/
theorem signature_of_methodDescriptor (himports : ∀ path ∈ imports, IsName path) {tys : List Ty}
    {result : Ty} (hnames : ∀ ty ∈ tys, ∀ name ∈ tyNames ty, IsName name)
    (h : methodDescriptor imports tys result = .ok d) :
    Signature.of? d = some ⟨tys.length, decide (result = .void)⟩ := by
  obtain ⟨texts, r, htexts, hr, hsplit⟩ :=
    splitMethod?_descriptor (fun ty hty => endsOnce_of_isName himports (hnames ty hty)) h
  simp only [Signature.of?, hsplit, Option.map_some, List.length_map, htexts.length_eq,
    typeDescriptor_void hr]

end Descriptors

/-! ### References -/

section References

variable {c : Flat.Class} {dispatch : Dispatch} {target : Operand} {name : String}
  {args : List Operand} {result : Ty} {ref : MethodRef}

theorem linkage_method (h : (linkage c).method? dispatch target name args result = some ref) :
    ownerName? c dispatch target = some ref.owner ∧ ref.name = name ∧
      methodDescriptor c.imports (args.map Operand.ty) (resultType dispatch result) =
        .ok ref.descriptor := by
  have h' : ((ownerName? c dispatch target).bind fun owner =>
      (methodDescriptor c.imports (args.map Operand.ty) (resultType dispatch result)).toOption.bind
        fun descriptor => some (⟨owner, name, descriptor⟩ : MethodRef)) = some ref := h
  obtain ⟨owner, howner, h'⟩ := Option.bind_eq_some_iff.mp h'
  obtain ⟨descriptor, hdescriptor, h'⟩ := Option.bind_eq_some_iff.mp h'
  obtain rfl := Option.some.inj h'
  refine ⟨howner, rfl, ?_⟩
  cases hd : methodDescriptor c.imports (args.map Operand.ty) (resultType dispatch result) with
  | error e => simp [hd, Except.toOption] at hdescriptor
  | ok text =>
    rw [hd] at hdescriptor
    obtain rfl : text = descriptor := by simpa [Except.toOption] using hdescriptor
    rfl

theorem signature_of_linkage (himports : ∀ path ∈ c.imports, IsName path)
    (hargs : ∀ op ∈ args, ∀ x ∈ operandNames op, IsName x)
    (h : (linkage c).method? dispatch target name args result = some ref) :
    Signature.of? ref.descriptor =
      some ⟨args.length, decide (resultType dispatch result = .void)⟩ := by
  obtain ⟨_, _, hdescriptor⟩ := linkage_method h
  have htys : ∀ ty ∈ args.map Operand.ty, ∀ x ∈ tyNames ty, IsName x := by
    intro ty hty x hx
    obtain ⟨op, hop, rfl⟩ := List.mem_map.mp hty
    exact hargs op hop x (tyNames_subset op x hx)
  have hsig := signature_of_methodDescriptor himports htys hdescriptor
  rw [List.length_map] at hsig
  exact hsig

end References

end JavaMinus.Assembly
