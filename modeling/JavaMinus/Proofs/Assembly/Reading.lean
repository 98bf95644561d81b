import JavaMinus.Proofs.Assembly.Names

/-!
# Reading assembly text

A reader of assembly text that knows the opcodes by their names and the range of their arguments.
It gives back every line that is spelled with proper names, so the text of a body means its lines.
-/

namespace JavaMinus.Assembly

open JavaMinus.Flat (Ty Operand Instr Invocation)
open JavaMinus.Lowering (placeLabel)

/-! ### Cutting text -/

def cutAt (c : Char) (text : List Char) : Option (List Char × List Char) :=
  match text.dropWhile (· != c) with
  | _ :: after => some (text.takeWhile (· != c), after)
  | [] => none

def cutAtLast (c : Char) (text : List Char) : Option (List Char × List Char) :=
  (cutAt c text.reverse).map fun p => (p.2.reverse, p.1.reverse)

def splitLines : List Char → List (List Char)
  | [] => []
  | c :: rest =>
    if c = '\n' then [] :: splitLines rest
    else
      match splitLines rest with
      | [] => [[c]]
      | line :: more => (c :: line) :: more

theorem cutAt_append {c : Char} {before : List Char} (h : c ∉ before) (after : List Char) :
    cutAt c (before ++ c :: after) = some (before, after) := by
  have hne : ∀ d ∈ before, (d != c) = true := by
    intro d hd
    simp only [bne_iff_ne, ne_eq]
    rintro rfl
    exact h hd
  unfold cutAt
  rw [List.dropWhile_append_of_pos hne, List.takeWhile_append_of_pos hne]
  simp

theorem cutAtLast_append {c : Char} {after : List Char} (h : c ∉ after) (before : List Char) :
    cutAtLast c (before ++ c :: after) = some (before, after) := by
  have hrev : (before ++ c :: after).reverse = after.reverse ++ c :: before.reverse := by simp
  unfold cutAtLast
  rw [hrev, cutAt_append (by simpa using h)]
  simp

theorem splitLines_append {line : List Char} (h : '\n' ∉ line) (rest : List Char) :
    splitLines (line ++ '\n' :: rest) = line :: splitLines rest := by
  induction line with
  | nil => simp [splitLines]
  | cons c line ih =>
    have hc : c ≠ '\n' := by
      rintro rfl
      exact h (List.mem_cons_self ..)
    have hline : '\n' ∉ line := fun hmem => h (List.mem_cons_of_mem _ hmem)
    rw [List.cons_append, splitLines, if_neg hc, ih hline]

/-! ### Numbers -/

def readNat? (text : List Char) : Option Nat :=
  if text ≠ [] ∧ text.all Char.isDigit then some (Nat.ofDigitChars 10 text 0) else none

def readInt? (text : List Char) : Option Int :=
  match text with
  | '-' :: digits => (readNat? digits).map fun n => -n
  | _ => (readNat? text).map Int.ofNat

theorem readNat?_toDigits (n : Nat) : readNat? (Nat.toDigits 10 n) = some n := by
  have hdigits : (Nat.toDigits 10 n).all Char.isDigit = true := by
    rw [List.all_eq_true]
    intro c hc
    exact Nat.isDigit_of_mem_toDigits (by decide) (by decide) hc
  unfold readNat?
  rw [if_pos ⟨Nat.toDigits_ne_nil, hdigits⟩, Nat.ofDigitChars_ten_toDigits]

theorem readInt?_toString (z : Int) : readInt? (toString z).toList = some z := by
  rw [Int.toString_eq_repr]
  cases z with
  | ofNat n =>
    have hlist : (Int.repr (.ofNat n)).toList = Nat.toDigits 10 n := Nat.toList_repr
    have hsign : ∀ digits, Nat.toDigits 10 n ≠ '-' :: digits := by
      intro digits heq
      have hmem : '-' ∈ Nat.toDigits 10 n := by
        rw [heq]
        exact List.mem_cons_self ..
      have hdigit := Nat.isDigit_of_mem_toDigits (by decide) (by decide) hmem
      revert hdigit
      decide
    rw [hlist]
    unfold readInt?
    split
    · next digits heq => exact absurd heq (hsign digits)
    · rw [readNat?_toDigits]
      rfl
  | negSucc n =>
    have hlist : (Int.repr (.negSucc n)).toList = '-' :: Nat.toDigits 10 (n + 1) := by
      rw [← Nat.toList_repr]
      simp [Int.repr]
    rw [hlist]
    unfold readInt?
    simp only [readNat?_toDigits]
    rfl

/-! ### Opcodes -/

def bareOps : List (String × Op) :=
  [("iconst_m1", .const (-1)), ("iconst_0", .const 0), ("iconst_1", .const 1), ("iconst_2", .const 2),
    ("iconst_3", .const 3), ("iconst_4", .const 4), ("iconst_5", .const 5),
    ("iload_0", .load .int 0), ("iload_1", .load .int 1), ("iload_2", .load .int 2),
    ("iload_3", .load .int 3), ("aload_0", .load .ref 0), ("aload_1", .load .ref 1),
    ("aload_2", .load .ref 2), ("aload_3", .load .ref 3), ("istore_0", .store .int 0),
    ("istore_1", .store .int 1), ("istore_2", .store .int 2), ("istore_3", .store .int 3),
    ("astore_0", .store .ref 0), ("astore_1", .store .ref 1), ("astore_2", .store .ref 2),
    ("astore_3", .store .ref 3), ("iaload", .arrayLoad .int), ("aaload", .arrayLoad .ref),
    ("iastore", .arrayStore .int), ("aastore", .arrayStore .ref), ("iadd", .arith .add),
    ("isub", .arith .sub), ("imul", .arith .mul), ("idiv", .arith .div), ("iand", .arith .and),
    ("ior", .arith .or), ("ixor", .arith .xor), ("pop", .pop), ("nop", .nop), ("return", .ret),
    ("ireturn", .retValue .int), ("areturn", .retValue .ref), ("arraylength", .arrayLength)]

def readConst? (lo hi : Int) (text : List Char) : Option Op := do
  let z ← readInt? text
  if lo ≤ z ∧ z ≤ hi then some (.const (.ofInt z)) else none

def readMember? (path : List Char) : Option (String × String) :=
  (cutAtLast '/' path).map fun p => (.ofList p.1, .ofList p.2)

def readField? (text : List Char) : Option FieldRef := do
  let (path, descriptor) ← cutAt ' ' text
  let (owner, name) ← readMember? path
  return { owner, name, descriptor := .ofList descriptor }

def readMethod? (text : List Char) : Option MethodRef := do
  let (path, params) ← cutAt '(' text
  let (owner, name) ← readMember? path
  return { owner, name, descriptor := .ofList ('(' :: params) }

def readOp? (mnemonic : String) (arg : List Char) : Option Op :=
  match mnemonic with
  | "bipush" => readConst? (-128) 127 arg
  | "sipush" => readConst? (-32768) 32767 arg
  | "ldc" => readConst? (-2147483648) 2147483647 arg
  | "iload" => (readNat? arg).map (.load .int)
  | "aload" => (readNat? arg).map (.load .ref)
  | "istore" => (readNat? arg).map (.store .int)
  | "astore" => (readNat? arg).map (.store .ref)
  | "goto" => some (.goto (.ofList arg))
  | "ifeq" => some (.ifZero (.ofList arg))
  | "ifne" => some (.ifNonzero (.ofList arg))
  | "if_icmplt" => some (.ifCompare .lt (.ofList arg))
  | "if_icmpgt" => some (.ifCompare .gt (.ofList arg))
  | "if_icmple" => some (.ifCompare .le (.ofList arg))
  | "if_icmpge" => some (.ifCompare .ge (.ofList arg))
  | "if_icmpeq" => some (.ifCompare .eq (.ofList arg))
  | "if_icmpne" => some (.ifCompare .ne (.ofList arg))
  | "getfield" => (readField? arg).map .getField
  | "putfield" => (readField? arg).map .putField
  | "invokestatic" => (readMethod? arg).map (.invoke .static)
  | "invokevirtual" => (readMethod? arg).map (.invoke .virtual)
  | "invokespecial" => (readMethod? arg).map (.invoke .special)
  | "new" => some (.new (.ofList arg))
  | "newarray" => if arg = "int".toList then some .newIntArray else none
  | _ => none

def Op.read? (text : List Char) : Option Op :=
  match cutAt ' ' text with
  | some (mnemonic, arg) => readOp? (.ofList mnemonic) arg
  | none => bareOps.lookup (.ofList text)

/-- A line without its break. Opcodes are indented, and a label ends in a colon. -/
def Line.read? (text : List Char) : Option Line :=
  match text with
  | '\t' :: rest => (Op.read? rest).map .op
  | _ => (cutAt ':' text).bind fun p => if p.2 = [] then some (.label (.ofList p.1)) else none

def readBody? (text : String) : Option (List Line) :=
  (splitLines text.toList).mapM Line.read?

/-! ### Lines that read back -/

/-- The names in an opcode are spelled so that they can be told apart. -/
def Op.Spelled : Op → Prop
  | .goto label | .ifZero label | .ifNonzero label | .ifCompare _ label => IsName label
  | .getField field | .putField field =>
    IsPath field.owner ∧ IsName field.name ∧ IsWord field.descriptor
  | .invoke _ method =>
    IsPath method.owner ∧ IsName method.name ∧ IsWord method.descriptor ∧
      ∃ params, method.descriptor.toList = '(' :: params
  | .new cls => IsPath cls
  | _ => True

def Line.Spelled : Line → Prop
  | .label name => IsName name
  | .op o => o.Spelled

theorem IsName.not_mem {s : String} (h : IsName s) {c : Char} (hc : c ∈ separators) : c ∉ s.toList :=
  fun hmem => h c hmem hc

theorem IsPath.not_mem {s : String} (h : IsPath s) {c : Char} (hc : c ∈ separators) (hne : c ≠ '/') :
    c ∉ s.toList :=
  fun hmem => hne (h c hmem hc)

section Opcodes

theorem read?_arg (mnemonic : String) (hblank : ' ' ∉ mnemonic.toList) (arg : List Char) :
    Op.read? (mnemonic.toList ++ ' ' :: arg) = readOp? mnemonic arg := by
  unfold Op.read?
  rw [cutAt_append hblank]
  simp only [String.ofList_toList]

theorem read?_const (value : Int32) : Op.read? (constText value.toInt).toList = some (.const value) := by
  have hlo := value.le_toInt
  have hhi := value.toInt_lt
  have hvalue {z : Int} (hz : value.toInt = z) : Int32.ofInt z = value := by
    rw [← hz, Int32.ofInt_toInt]
  generalize hz : value.toInt = z at hlo hhi ⊢
  have hvalue := hvalue hz
  -- the argument of the long forms, with the room they have
  have hlong (mnemonic : String) (lo hi : Int) (hblank : ' ' ∉ mnemonic.toList)
      (hread : readOp? mnemonic = readConst? lo hi) (hlo : lo ≤ z) (hhi : z ≤ hi) :
      Op.read? (mnemonic ++ " " ++ toString z).toList = some (.const value) := by
    have htext : (mnemonic ++ " " ++ toString z).toList =
        mnemonic.toList ++ ' ' :: (toString z).toList := by simp
    rw [htext, read?_arg mnemonic hblank, hread]
    unfold readConst?
    rw [readInt?_toString]
    simp only [Option.bind_eq_bind, Option.bind_some, if_pos (And.intro hlo hhi), hvalue]
  unfold constText
  by_cases hneg : z = -1
  · rw [if_pos hneg, ← hvalue, hneg]
    decide
  rw [if_neg hneg]
  by_cases hsmall : 0 ≤ z ∧ z ≤ 5
  · rw [if_pos hsmall, ← hvalue]
    have hcases : z = 0 ∨ z = 1 ∨ z = 2 ∨ z = 3 ∨ z = 4 ∨ z = 5 := by omega
    rcases hcases with rfl | rfl | rfl | rfl | rfl | rfl <;> decide
  rw [if_neg hsmall]
  by_cases hbyte : -128 ≤ z ∧ z ≤ 127
  · rw [if_pos hbyte]
    exact hlong "bipush" (-128) 127 (by decide) rfl hbyte.1 hbyte.2
  rw [if_neg hbyte]
  by_cases hshort : -32768 ≤ z ∧ z ≤ 32767
  · rw [if_pos hshort]
    exact hlong "sipush" (-32768) 32767 (by decide) rfl hshort.1 hshort.2
  rw [if_neg hshort]
  exact hlong "ldc" (-2147483648) 2147483647 (by decide) rfl (by omega) (by omega)

theorem read?_slot (mnemonic : String) (op : Nat → Op) (hblank : ' ' ∉ mnemonic.toList)
    (hread : readOp? mnemonic = fun arg => (readNat? arg).map op)
    (hshort : ∀ slot, slot ≤ 3 →
      Op.read? (mnemonic ++ "_" ++ toString slot).toList = some (op slot)) (slot : Nat) :
    Op.read? (mnemonic ++ slotText slot).toList = some (op slot) := by
  unfold slotText
  by_cases hle : slot ≤ 3
  · rw [if_pos hle, ← String.append_assoc]
    exact hshort slot hle
  · rw [if_neg hle]
    have htext : (mnemonic ++ (" " ++ toString slot)).toList =
        mnemonic.toList ++ ' ' :: Nat.toDigits 10 slot := by simp
    rw [htext, read?_arg mnemonic hblank, hread]
    simp only [readNat?_toDigits, Option.map_some]

theorem readMember?_path {owner name : String} (hname : IsName name) :
    readMember? (owner ++ "/" ++ name).toList = some (owner, name) := by
  have htext : (owner ++ "/" ++ name).toList = owner.toList ++ '/' :: name.toList := by simp
  unfold readMember?
  rw [htext, cutAtLast_append (hname.not_mem (by decide))]
  simp

theorem member_not_mem {owner name : String} (howner : IsPath owner) (hname : IsName name) {c : Char}
    (hc : c ∈ separators) (hne : c ≠ '/') : c ∉ (owner ++ "/" ++ name).toList := by
  have hslash : "/".toList = ['/'] := by decide
  simp only [String.toList_append, hslash, List.mem_append, List.mem_singleton]
  rintro ((hmem | rfl) | hmem)
  · exact howner.not_mem hc hne hmem
  · exact hne rfl
  · exact hname.not_mem hc hmem

theorem readField?_text {field : FieldRef} (howner : IsPath field.owner) (hname : IsName field.name) :
    readField? field.text.toList = some field := by
  have htext : field.text.toList =
      (field.owner ++ "/" ++ field.name).toList ++ ' ' :: field.descriptor.toList := by
    simp [FieldRef.text]
  unfold readField?
  rw [htext, cutAt_append (member_not_mem howner hname (by decide) (by decide))]
  simp only [Option.bind_eq_bind, Option.bind_some, readMember?_path hname, String.ofList_toList]
  rfl

theorem readMethod?_text {method : MethodRef} (howner : IsPath method.owner)
    (hname : IsName method.name) {params : List Char}
    (hparams : method.descriptor.toList = '(' :: params) :
    readMethod? method.text.toList = some method := by
  have htext : method.text.toList =
      (method.owner ++ "/" ++ method.name).toList ++ '(' :: params := by
    simp [MethodRef.text, hparams]
  have hdescriptor : String.ofList ('(' :: params) = method.descriptor := by
    rw [← hparams, String.ofList_toList]
  unfold readMethod?
  rw [htext, cutAt_append (member_not_mem howner hname (by decide) (by decide))]
  simp only [Option.bind_eq_bind, Option.bind_some, readMember?_path hname, hdescriptor]
  rfl

theorem read?_name (mnemonic : String) (op : String → Op) (hblank : ' ' ∉ mnemonic.toList)
    (hread : readOp? mnemonic = fun arg => some (op (.ofList arg))) (name : String) :
    Op.read? (mnemonic ++ " " ++ name).toList = some (op name) := by
  have htext : (mnemonic ++ " " ++ name).toList = mnemonic.toList ++ ' ' :: name.toList := by simp
  rw [htext, read?_arg mnemonic hblank, hread]
  simp only [String.ofList_toList]

theorem read?_ref {α : Type} {read : List Char → Option α} (mnemonic : String) (op : α → Op)
    (hblank : ' ' ∉ mnemonic.toList) (hread : readOp? mnemonic = fun arg => (read arg).map op)
    {ref : α} {text : String} (href : read text.toList = some ref) :
    Op.read? (mnemonic ++ " " ++ text).toList = some (op ref) := by
  have htext : (mnemonic ++ " " ++ text).toList = mnemonic.toList ++ ' ' :: text.toList := by simp
  rw [htext, read?_arg mnemonic hblank, hread]
  simp only [href, Option.map_some]

theorem Op.read?_text {o : Op} (h : o.Spelled) : Op.read? o.text.toList = some o := by
  cases o with
  | const value => exact read?_const value
  | load kind slot =>
    cases kind with
    | int => exact read?_slot "iload" (.load .int) (by decide) rfl (by decide) slot
    | ref => exact read?_slot "aload" (.load .ref) (by decide) rfl (by decide) slot
  | store kind slot =>
    cases kind with
    | int => exact read?_slot "istore" (.store .int) (by decide) rfl (by decide) slot
    | ref => exact read?_slot "astore" (.store .ref) (by decide) rfl (by decide) slot
  | arrayLoad kind => cases kind <;> decide
  | arrayStore kind => cases kind <;> decide
  | retValue kind => cases kind <;> decide
  | arith op => cases op <;> decide
  | pop | nop | ret | newIntArray | arrayLength => decide
  | goto label => exact read?_name "goto" .goto (by decide) rfl label
  | ifZero label => exact read?_name "ifeq" .ifZero (by decide) rfl label
  | ifNonzero label => exact read?_name "ifne" .ifNonzero (by decide) rfl label
  | ifCompare cmp label =>
    cases cmp with
    | lt => exact read?_name "if_icmplt" (.ifCompare .lt) (by decide) rfl label
    | gt => exact read?_name "if_icmpgt" (.ifCompare .gt) (by decide) rfl label
    | le => exact read?_name "if_icmple" (.ifCompare .le) (by decide) rfl label
    | ge => exact read?_name "if_icmpge" (.ifCompare .ge) (by decide) rfl label
    | eq => exact read?_name "if_icmpeq" (.ifCompare .eq) (by decide) rfl label
    | ne => exact read?_name "if_icmpne" (.ifCompare .ne) (by decide) rfl label
  | new cls => exact read?_name "new" .new (by decide) rfl cls
  | getField field =>
    exact read?_ref "getfield" .getField (by decide) rfl (readField?_text h.1 h.2.1)
  | putField field =>
    exact read?_ref "putfield" .putField (by decide) rfl (readField?_text h.1 h.2.1)
  | invoke dispatch method =>
    obtain ⟨howner, hname, _, params, hparams⟩ := h
    have hmethod := readMethod?_text howner hname hparams
    cases dispatch with
    | static => exact read?_ref "invokestatic" (.invoke .static) (by decide) rfl hmethod
    | virtual => exact read?_ref "invokevirtual" (.invoke .virtual) (by decide) rfl hmethod
    | special => exact read?_ref "invokespecial" (.invoke .special) (by decide) rfl hmethod

end Opcodes

/-! ### Bodies that read back -/

def NoBreak (s : String) : Prop :=
  '\n' ∉ s.toList

instance (s : String) : Decidable (NoBreak s) :=
  inferInstanceAs (Decidable ('\n' ∉ s.toList))

section Breaks

theorem NoBreak.append {s t : String} (hs : NoBreak s) (ht : NoBreak t) : NoBreak (s ++ t) := by
  unfold NoBreak
  rw [String.toList_append, List.mem_append]
  rintro (h | h)
  · exact hs h
  · exact ht h

theorem IsWord.noBreak {s : String} (h : IsWord s) : NoBreak s :=
  fun hmem => h '\n' hmem (by decide)

theorem IsName.noBreak {s : String} (h : IsName s) : NoBreak s :=
  h.isPath.isWord.noBreak

theorem noBreak_nat (n : Nat) : NoBreak (toString n) := by
  intro hmem
  rw [Nat.toString_eq_repr, Nat.toList_repr] at hmem
  have hdigit := Nat.isDigit_of_mem_toDigits (by decide) (by decide) hmem
  revert hdigit
  decide

theorem noBreak_int (z : Int) : NoBreak (toString z) := by
  cases z with
  | ofNat n => exact noBreak_nat n
  | negSucc n => exact NoBreak.append (by decide : NoBreak "-") (noBreak_nat (n + 1))

theorem noBreak_const (z : Int) : NoBreak (constText z) := by
  unfold constText
  split
  · decide
  split
  · exact NoBreak.append (by decide) (noBreak_int z)
  split
  · exact NoBreak.append (by decide) (noBreak_int z)
  split
  · exact NoBreak.append (by decide) (noBreak_int z)
  · exact NoBreak.append (by decide) (noBreak_int z)

theorem noBreak_slot {s : String} (h : NoBreak s) (slot : Nat) : NoBreak (s ++ slotText slot) := by
  refine h.append ?_
  unfold slotText
  split
  · exact NoBreak.append (by decide) (noBreak_nat slot)
  · exact NoBreak.append (by decide) (noBreak_nat slot)

theorem Op.noBreak {o : Op} (h : o.Spelled) : NoBreak o.text := by
  have hmember {owner name rest : String} (howner : IsPath owner) (hname : IsName name)
      (hrest : NoBreak rest) : NoBreak (owner ++ "/" ++ name ++ rest) :=
    ((howner.isWord.noBreak.append (by decide)).append hname.noBreak).append hrest
  cases o with
  | const value => exact noBreak_const value.toInt
  | load kind slot =>
    cases kind with
    | int => exact noBreak_slot (by decide : NoBreak "iload") slot
    | ref => exact noBreak_slot (by decide : NoBreak "aload") slot
  | store kind slot =>
    cases kind with
    | int => exact noBreak_slot (by decide : NoBreak "istore") slot
    | ref => exact noBreak_slot (by decide : NoBreak "astore") slot
  | arrayLoad kind => cases kind <;> decide
  | arrayStore kind => cases kind <;> decide
  | retValue kind => cases kind <;> decide
  | arith op => cases op <;> decide
  | pop | nop | ret | newIntArray | arrayLength => decide
  | goto label => exact NoBreak.append (by decide) (IsName.noBreak h)
  | ifZero label => exact NoBreak.append (by decide) (IsName.noBreak h)
  | ifNonzero label => exact NoBreak.append (by decide) (IsName.noBreak h)
  | ifCompare cmp label =>
    refine NoBreak.append ?_ (IsName.noBreak h)
    cases cmp <;> decide
  | getField field | putField field =>
    refine NoBreak.append (by decide) ?_
    unfold FieldRef.text
    rw [String.append_assoc]
    exact hmember h.1 h.2.1 (NoBreak.append (by decide) h.2.2.noBreak)
  | invoke dispatch method =>
    obtain ⟨howner, hname, hword, _⟩ := h
    refine NoBreak.append ?_ (hmember howner hname hword.noBreak)
    cases dispatch <;> decide
  | new cls => exact NoBreak.append (by decide) (IsPath.isWord h).noBreak

end Breaks

theorem Line.read?_text {line : Line} (h : line.Spelled) :
    ∃ text, line.text.toList = text ++ ['\n'] ∧ '\n' ∉ text ∧ Line.read? text = some line := by
  cases line with
  | label name =>
    have hname : IsName name := h
    have hread : Line.read? (name.toList ++ [':']) = some (.label name) := by
      have htab : ∀ rest, name.toList ++ [':'] ≠ '\t' :: rest := by
        intro rest heq
        have hmem : '\t' ∈ name.toList ++ [':'] := by
          rw [heq]
          exact List.mem_cons_self ..
        rcases List.mem_append.mp hmem with hmem | hmem
        · exact hname.not_mem (by decide) hmem
        · revert hmem
          decide
      unfold Line.read?
      split
      · next rest heq => exact absurd heq (htab rest)
      · rw [cutAt_append (hname.not_mem (by decide))]
        simp
    refine ⟨name.toList ++ [':'], by simp [Line.text], ?_, hread⟩
    rw [List.mem_append]
    rintro (hmem | hmem)
    · exact hname.noBreak hmem
    · revert hmem
      decide
  | op o =>
    have ho : o.Spelled := h
    refine ⟨'\t' :: o.text.toList, by simp [Line.text], ?_, ?_⟩
    · rw [List.mem_cons]
      rintro (hmem | hmem)
      · revert hmem
        decide
      · exact Op.noBreak ho hmem
    · show (Op.read? o.text.toList).map Line.op = some (.op o)
      rw [Op.read?_text ho]
      rfl

theorem readBody?_text {body : List Line} (h : ∀ line ∈ body, line.Spelled) :
    readBody? (String.join (body.map Line.text)) = some body := by
  have hbody : (splitLines (body.flatMap fun line => line.text.toList)).mapM Line.read? =
      some body := by
    induction body with
    | nil => rfl
    | cons line rest ih =>
      obtain ⟨text, htext, hbreak, hread⟩ := Line.read?_text (h line (List.mem_cons_self ..))
      have hrest := ih fun l hl => h l (List.mem_cons_of_mem _ hl)
      rw [List.flatMap_cons, htext, List.append_assoc, List.singleton_append,
        splitLines_append hbreak, List.mapM_cons, hread]
      simp only [hrest, Option.bind_eq_bind, Option.bind_some]
      rfl
  unfold readBody?
  rw [String.toList_join, List.flatMap_map]
  exact hbody

/-! ### Emitted lines read back -/

section Emitted

variable {φ : Frame} {lines : List Line}

theorem Loads.spelled {op : Operand} (h : Loads φ op lines) : ∀ line ∈ lines, line.Spelled := by
  induction h with
  | lit | self | cell => simp [Line.Spelled, Op.Spelled]
  | elem ty _ _ iha ihi =>
    simp only [List.forall_mem_append]
    exact ⟨⟨iha, ihi⟩, by simp [Line.Spelled, Op.Spelled]⟩

theorem LoadsAll.spelled {ops : List Operand} (h : LoadsAll φ ops lines) :
    ∀ line ∈ lines, line.Spelled := by
  induction h with
  | nil => simp
  | cons hop _ ih => exact List.forall_mem_append.mpr ⟨hop.spelled, ih⟩

theorem Receives.spelled {dispatch : Dispatch} {target : Operand}
    (h : Receives φ dispatch target lines) : ∀ line ∈ lines, line.Spelled := by
  cases h with
  | static => simp
  | value _ hload => exact hload.spelled

theorem spelled_invoke {m : Flat.Method} (h : Named φ.cls m) {dispatch : Dispatch} {target : Operand}
    {name : String} {args : List Operand} {result : Ty} {ref : MethodRef}
    (hnames : ∀ x ∈ operandNames target ++ [name] ++ args.flatMap operandNames ++ tyNames result,
      IsName x)
    (href : (linkage φ.cls).method? dispatch target name args result = some ref) :
    (Line.op (.invoke dispatch ref)).Spelled := by
  obtain ⟨howner, rfl, hdescriptor⟩ := linkage_method href
  simp only [List.forall_mem_append, List.forall_mem_singleton] at hnames
  obtain ⟨⟨⟨htarget, hname⟩, hargs⟩, hresult⟩ := hnames
  have htys : ∀ ty ∈ args.map Operand.ty, ∀ x ∈ tyNames ty, IsName x := by
    intro ty hty x hx
    obtain ⟨op, hop, rfl⟩ := List.mem_map.mp hty
    exact hargs x (List.mem_flatMap.mpr ⟨op, hop, tyNames_subset op x hx⟩)
  have hret : ∀ x ∈ tyNames (resultType dispatch result), IsName x := by
    unfold resultType
    split
    · simp [tyNames]
    · exact hresult
  obtain ⟨hword, hparams⟩ := isWord_methodDescriptor h.imports htys hret hdescriptor
  exact ⟨isPath_ownerName h htarget howner, hname, hword, hparams⟩

theorem Calls.spelled {m : Flat.Method} (h : Named φ.cls m) {invocation : Invocation}
    {target : Operand} {method : Option String} {args : List Operand} {result : Ty} {hasValue : Bool}
    (hcalls : Calls φ invocation target method args result lines hasValue)
    (hnames : ∀ x ∈ instrNames (.call invocation target method args result), IsName x) :
    ∀ line ∈ lines, line.Spelled := by
  cases hcalls with
  | newArray _ _ _ hsize =>
    exact List.forall_mem_append.mpr ⟨hsize.spelled, by simp [Line.Spelled, Op.Spelled]⟩
  | @newObject name =>
    have hname : IsName name := hnames name (by simp [instrNames, operandNames])
    simpa [Line.Spelled, Op.Spelled] using isPath_resolveClass h.imports hname
  | arrayLength _ _ _ htarget =>
    exact List.forall_mem_append.mpr ⟨htarget.spelled, by simp [Line.Spelled, Op.Spelled]⟩
  | named _ hreceiver hargs href =>
    have hinvoke := spelled_invoke h hnames href
    simp only [List.forall_mem_append, List.forall_mem_singleton]
    exact ⟨⟨hreceiver.spelled, hargs.spelled⟩, hinvoke⟩

theorem spelled_field {m : Flat.Method} (h : Named φ.cls m) {field : Operand} {ref : FieldRef}
    (hnames : ∀ x ∈ operandNames field, IsName x) (href : (linkage φ.cls).field? field = some ref) :
    IsPath ref.owner ∧ IsName ref.name ∧ IsWord ref.descriptor := by
  cases field with
  | var name ty =>
    have href' : (typeDescriptor φ.cls.imports ty).toOption.map
        (fun descriptor => (⟨φ.cls.name, name, descriptor⟩ : FieldRef)) = some ref := href
    obtain ⟨descriptor, hdescriptor, rfl⟩ := Option.map_eq_some_iff.mp href'
    rw [operandNames, List.forall_mem_cons] at hnames
    cases hd : typeDescriptor φ.cls.imports ty with
    | error e => simp [hd, Except.toOption] at hdescriptor
    | ok text =>
      obtain rfl : text = descriptor := by simpa [hd, Except.toOption] using hdescriptor
      exact ⟨h.cls.isPath, hnames.1, isWord_typeDescriptor h.imports hnames.2 hd⟩
  | lit | param | elem | self | classRef => simp [linkage] at href

theorem isName_placeLabel {place : String} (h : IsName place) (n : Nat) :
    IsName (placeLabel place n) := by
  intro c hc
  simp only [placeLabel, String.toList_append, List.mem_append] at hc
  rcases hc with (hc | hc) | hc
  · exact h c hc
  · have hline : IsName "_" := by decide
    exact hline c hc
  · rw [Nat.toString_eq_repr, Nat.toList_repr] at hc
    have hdigit := Nat.isDigit_of_mem_toDigits (by decide) (by decide) hc
    have hnone : separators.all (fun d => !d.isDigit) = true := by decide
    intro hsep
    simpa [hdigit] using List.all_eq_true.mp hnone c hsep

theorem spelled_compareLines (cmp : Comparison) (n : Nat) :
    ∀ line ∈ compareLines cmp n, line.Spelled := by
  have hyes := isName_placeLabel (by decide : IsName "cmp_true") n
  have hdone := isName_placeLabel (by decide : IsName "cmp_end") (n + 1)
  simp only [compareLines, List.forall_mem_cons, List.not_mem_nil, false_implies, implies_true,
    and_true]
  exact ⟨hyes, trivial, hdone, hyes, trivial, hdone⟩

theorem Pushes.spelled {m : Flat.Method} (h : Named φ.cls m) {i : Instr} {n n' : Nat}
    (hpushes : Pushes φ i lines n n') (hnames : ∀ x ∈ instrNames i, IsName x) :
    ∀ line ∈ lines, line.Spelled := by
  cases hpushes with
  | single _ h => exact h.spelled
  | arith _ _ hl hr =>
    simp only [List.forall_mem_append, List.forall_mem_singleton]
    exact ⟨⟨hl.spelled, hr.spelled⟩, trivial⟩
  | @compare _ cmp _ _ _ _ n _ hl hr =>
    simp only [List.forall_mem_append]
    exact ⟨⟨hl.spelled, hr.spelled⟩, spelled_compareLines cmp n⟩
  | not _ h =>
    simp only [List.forall_mem_append]
    exact ⟨h.spelled, by simp [Line.Spelled, Op.Spelled]⟩
  | getField _ hobject href =>
    rw [instrNames, List.forall_mem_append] at hnames
    simp only [List.forall_mem_append, List.forall_mem_singleton]
    exact ⟨hobject.spelled, spelled_field h hnames.2 href⟩
  | call _ hcalls => exact hcalls.spelled h hnames

theorem Emits.spelled {m : Flat.Method} (h : Named φ.cls m) {i : Instr} {n n' : Nat}
    (hemits : Emits φ i lines n n') (hnames : ∀ x ∈ instrNames i, IsName x) :
    ∀ line ∈ lines, line.Spelled := by
  cases hemits with
  | assignElem _ _ ha hi hv =>
    rw [instrNames, List.forall_mem_append] at hnames
    simp only [List.forall_mem_append, List.forall_mem_singleton]
    exact ⟨⟨⟨ha.spelled, hi.spelled⟩, hv.spelled h hnames.2⟩, trivial⟩
  | assignCell _ _ _ hv =>
    rw [instrNames, List.forall_mem_append] at hnames
    simp only [List.forall_mem_append, List.forall_mem_singleton]
    exact ⟨hv.spelled h hnames.2, trivial⟩
  | retNone | nop => simp [Line.Spelled, Op.Spelled]
  | ret _ hload =>
    simp only [List.forall_mem_append, List.forall_mem_singleton]
    exact ⟨hload.spelled, trivial⟩
  | goto label =>
    rw [List.forall_mem_singleton]
    exact hnames label (List.mem_singleton_self label)
  | branchCompare label _ _ hl hr =>
    rw [instrNames, List.forall_mem_append, List.forall_mem_singleton] at hnames
    simp only [List.forall_mem_append, List.forall_mem_singleton]
    exact ⟨⟨hl.spelled, hr.spelled⟩, hnames.2⟩
  | branchNot label _ hload =>
    rw [instrNames, List.forall_mem_append, List.forall_mem_singleton] at hnames
    simp only [List.forall_mem_append, List.forall_mem_singleton]
    exact ⟨hload.spelled, hnames.2⟩
  | branchValue label hv =>
    rw [instrNames, List.forall_mem_append, List.forall_mem_singleton] at hnames
    simp only [List.forall_mem_append, List.forall_mem_singleton]
    exact ⟨hv.spelled h hnames.1, hnames.2⟩
  | putField _ ho hx href =>
    rw [instrNames, List.forall_mem_append, List.forall_mem_append] at hnames
    simp only [List.forall_mem_append, List.forall_mem_singleton]
    exact ⟨⟨ho.spelled, hx.spelled⟩, spelled_field h hnames.1.2 href⟩
  | callVoid _ hcalls => exact hcalls.spelled h hnames
  | discard hv =>
    simp only [List.forall_mem_append, List.forall_mem_singleton]
    exact ⟨hv.spelled h hnames, trivial⟩

theorem EmitsAll.spelled {m : Flat.Method} (h : Named φ.cls m) {steps : List Flat.Step}
    {blocks : List (List Line)} {σ σ' : EmitState} (hemits : EmitsAll φ steps blocks σ σ')
    (hsteps : ∀ s ∈ steps, s ∈ m.steps) : ∀ line ∈ layout steps blocks, line.Spelled := by
  induction hemits with
  | nil => simp [layout]
  | @cons s rest block blocks σ σ₁ σ₂ hs _ ih =>
    rw [List.forall_mem_cons] at hsteps
    have hlabels : ∀ line ∈ s.labels.map Line.label, line.Spelled := by
      intro line hline
      obtain ⟨label, hlabel, rfl⟩ := List.mem_map.mp hline
      exact h.labels s hsteps.1 label hlabel
    have hblock := (instruction_emits hs).spelled h (h.steps s hsteps.1)
    simp only [layout, List.forall_mem_append]
    exact ⟨⟨hlabels, hblock⟩, ih hsteps.2⟩

/-- The text of an emitted body says its lines. -/
theorem readBody?_emit {cls : Flat.Class} {m : Flat.Method} {slots : SlotTable} {out : Method}
    (h : Method.emit cls m slots = .ok out) (hnames : Named cls m) :
    readBody? (String.join (out.body.map Line.text)) = some out.body := by
  obtain ⟨blocks, σ, hblocks, hbody⟩ := emit_body h
  apply readBody?_text
  rw [hbody, List.forall_mem_append]
  refine ⟨hblocks.spelled hnames fun s hs => hs, ?_⟩
  unfold closing
  split
  · simp [Line.Spelled, Op.Spelled]
  · simp

end Emitted

end JavaMinus.Assembly
