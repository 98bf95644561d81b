import JavaMinus.Proofs.Assembly.Names

/-!
# Decoding descriptors

The parameter types of a signature are written one behind the other, with nothing between them.
Each descriptor says itself where it ends, so there is one way to split the text of a signature, and it
determines the descriptors that the text was made of. The only types without a descriptor are arrays of
`void` and what is made of a class without a name.
-/

namespace JavaMinus.Flat

/-- The type below all array levels. -/
def Ty.base : Ty → Ty
  | .array elem => elem.base
  | ty => ty

/-- The number of array levels. -/
def Ty.depth : Ty → Nat
  | .array elem => elem.depth + 1
  | _ => 0

theorem Ty.base_eq_void_iff (ty : Ty) :
    ty.base = .void ↔ ty = .void ∨ ty.base = .void ∧ 0 < ty.depth := by
  cases ty <;> simp [base, depth]

end JavaMinus.Flat

namespace JavaMinus.Assembly

open JavaMinus.Flat (Ty)

variable {imports : List String} {ty : Ty} {d : String}

/-! ### Types without a descriptor -/

theorem classDescriptor_error_iff {cls : String} :
    (∃ e, classDescriptor imports cls = .error e) ↔ cls = "" := by
  unfold classDescriptor
  split <;> simp [*]

theorem typeDescriptor_array_error_iff {elem : Ty} :
    (∃ e, typeDescriptor imports (.array elem) = .error e) ↔
      elem = .void ∨ ∃ e, typeDescriptor imports elem = .error e := by
  by_cases hvoid : elem = .void
  · simp [typeDescriptor, hvoid]
  · cases helem : typeDescriptor imports elem with
    | error e => simp [typeDescriptor, hvoid, helem, bind, Except.bind]
    | ok text => simp [typeDescriptor, hvoid, helem, bind, Except.bind, pure, Except.pure]

theorem typeDescriptor_error_iff (imports : List String) (ty : Ty) :
    (∃ e, typeDescriptor imports ty = .error e) ↔
      ty.base = .void ∧ 0 < ty.depth ∨ ty.base ∈ [Ty.object "", .classRef "", .self ""] := by
  induction ty with
  | int | bool | str | void => simp [typeDescriptor, Ty.base, Ty.depth]
  | object | classRef | self => simp [typeDescriptor, classDescriptor_error_iff, Ty.base, Ty.depth]
  | array elem ih =>
    -- one level more turns `void` itself, which has a descriptor, into a type that has none
    rw [typeDescriptor_array_error_iff, ih, ← or_assoc, ← Ty.base_eq_void_iff]
    simp [Ty.base, Ty.depth]

/-! ### Signatures -/

/-- Two types with the same descriptor. -/
def SameDescriptor (imports : List String) (p q : Ty) : Prop :=
  ∃ text, typeDescriptor imports p = .ok text ∧ typeDescriptor imports q = .ok text

theorem sameDescriptor_of_texts {ps qs : List Ty} {texts : List String}
    (hps : List.Forall₂ (fun ty text => typeDescriptor imports ty = .ok text) ps texts)
    (hqs : List.Forall₂ (fun ty text => typeDescriptor imports ty = .ok text) qs texts) :
    List.Forall₂ (SameDescriptor imports) ps qs := by
  induction hps generalizing qs with
  | nil =>
    cases hqs with
    | nil => exact .nil
  | cons hp _ ih =>
    cases hqs with
    | cons hq hqs => exact .cons ⟨_, hp, hq⟩ (ih hqs)

/-- A type fails to have a descriptor only as an array of `void` or over a nameless class, and equal
signature texts have as many parameters, with equal descriptors at each place and for the result. -/
theorem descriptors_decode_uniquely (imports : List String) :
    (∀ ty : Ty, (∃ e, typeDescriptor imports ty = .error e) ↔
      ty.base = .void ∧ 0 < ty.depth ∨ ty.base ∈ [Ty.object "", .classRef "", .self ""]) ∧
    ∀ (ps qs : List Ty) (r s : Ty) (d : String), (∀ ty ∈ ps ++ qs, EndsOnce imports ty) →
      methodDescriptor imports ps r = .ok d → methodDescriptor imports qs s = .ok d →
      ps.length = qs.length ∧ List.Forall₂ (SameDescriptor imports) ps qs ∧
        SameDescriptor imports r s := by
  refine ⟨typeDescriptor_error_iff imports, ?_⟩
  intro ps qs r s d hends hp hq
  obtain ⟨hpends, hqends⟩ := List.forall_mem_append.mp hends
  obtain ⟨texts, result, hps, hr, hsplit⟩ := splitMethod?_descriptor hpends hp
  obtain ⟨texts', result', hqs, hs, hsplit'⟩ := splitMethod?_descriptor hqends hq
  -- both signatures have this text, and there is one way to split it
  obtain ⟨htexts, hresult⟩ := Prod.mk.inj (Option.some.inj (hsplit.symm.trans hsplit'))
  obtain rfl := List.map_injective_iff.mpr (fun _ _ => String.toList_inj.mp) htexts
  obtain rfl := String.toList_inj.mp hresult
  have hall := sameDescriptor_of_texts hps hqs
  exact ⟨hall.length_eq, hall, result, hr, hs⟩

theorem descriptors_decode_imported :
    (∃ e, typeDescriptor ["java.util.List"] (.array (.array .void)) = .error e) ∧
    List.Forall₂ (SameDescriptor ["java.util.List"])
      [.array (.object "List"), .str, .int]
      [.array (.self "List"), .object "java/lang/String", .int] := by
  obtain ⟨hfails, hsame⟩ := descriptors_decode_uniquely ["java.util.List"]
  refine ⟨(hfails _).mpr (by decide), ?_⟩
  exact (hsame _ _ .void .void "([Ljava/util/List;Ljava/lang/String;I)V" (by decide +kernel)
    (by decide +kernel) (by decide +kernel)).2.1

end JavaMinus.Assembly
