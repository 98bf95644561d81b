import JavaMinus.Proofs.Flat.Meaning
import JavaMinus.Proofs.Lowering.StmtDerivation

/-!
# Names made by lowering

A temporary is never a declared name, and later temporaries have greater numbers. The labels of
lowered code carry the numbers drawn while it was made, so no label occurs twice.
-/

namespace JavaMinus.Lowering

open JavaMinus.Source (SymbolTable)
open JavaMinus.Flat (Instr Code labelsOf)

/-! ### Numbered names -/

theorem toList_toString (n : Nat) : (toString n).toList = Nat.toDigits 10 n := by
  rw [Nat.toString_eq_repr, Nat.toList_repr]

theorem toDigits_inj {m n : Nat} (h : Nat.toDigits 10 m = Nat.toDigits 10 n) : m = n := by
  rw [← Nat.ofDigitChars_ten_toDigits (n := m), h, Nat.ofDigitChars_ten_toDigits]

theorem tempName_inj {m n : Nat} (h : tempName m = tempName n) : m = n := by
  have hlist := congrArg String.toList h
  simp only [tempName, String.toList_append, toList_toString] at hlist
  exact toDigits_inj (List.append_cancel_left hlist)

theorem tempName_ne_this (n : Nat) : tempName n ≠ "this" := by
  intro h
  have hlist := congrArg String.toList h
  simp only [tempName, String.toList_append, toList_toString] at hlist
  have hdigits : Nat.toDigits 10 n = "his".toList := List.append_cancel_left hlist
  have hmem : 'h' ∈ Nat.toDigits 10 n := by
    rw [hdigits]
    decide
  have hdigit := Nat.isDigit_of_mem_toDigits (by decide) (by decide) hmem
  cases hdigit

theorem placeLabel_inj {p q : String} {m n : Nat} (h : placeLabel p m = placeLabel q n) :
    p = q ∧ m = n := by
  have hlist := congrArg String.toList h
  simp only [placeLabel, String.toList_append, toList_toString] at hlist
  -- digits hold no underscore, so both sides part at the last one
  have hpart : ∀ (s : List Char) (k : Nat),
      (s ++ "_".toList ++ Nat.toDigits 10 k).reverse.takeWhile (· != '_') =
        (Nat.toDigits 10 k).reverse := by
    intro s k
    have hnone : ∀ c ∈ (Nat.toDigits 10 k).reverse, (c != '_') = true := by
      intro c hc
      have hmem : c ∈ Nat.toDigits 10 k := List.mem_reverse.mp hc
      simp only [bne_iff_ne, ne_eq]
      rintro rfl
      exact Nat.underscore_not_in_toDigits hmem
    rw [List.reverse_append, List.takeWhile_append_of_pos hnone]
    simp
  have hdigits := congrArg (fun l : List Char => l.reverse.takeWhile (· != '_')) hlist
  simp only [hpart, List.reverse_inj] at hdigits
  rw [hdigits] at hlist
  have hp := List.append_cancel_right (List.append_cancel_right hlist)
  exact ⟨String.toList_inj.mp hp, toDigits_inj hdigits⟩

theorem skipLabel_eq (op : Source.BinOp) (n : Nat) :
    skipLabel op n = placeLabel (if op = .and then "and_end" else "or_end") n := by
  unfold skipLabel placeLabel
  split <;> rfl

/-! ### Temporaries -/

theorem mem_declaredNames {t : SymbolTable} {method name : String}
    (h : t.isDeclared method name = true) : name ∈ t.declaredNames method := by
  unfold SymbolTable.isDeclared SymbolTable.resolve? at h
  unfold SymbolTable.declaredNames
  rw [Option.isSome_or, Bool.or_eq_true] at h
  cases hm : t.method? method with
  | none =>
    simp only [hm, Option.bind_none, Option.isSome_none, Bool.false_eq_true, false_or,
      Option.isSome_map] at h
    obtain ⟨f, hf⟩ := Option.isSome_iff_exists.mp h
    have hname := List.find?_some hf
    exact List.mem_map.mpr ⟨f, List.mem_of_find?_eq_some hf, by simpa using hname⟩
  | some m =>
    simp only [hm, Option.bind_some, Option.isSome_or, Bool.or_eq_true, Option.isSome_map] at h
    simp only [List.mem_append, List.mem_map]
    rcases h with (h | h) | h
    · unfold Source.MethodSymbols.local? at h
      rw [Option.isSome_map] at h
      obtain ⟨s, hs⟩ := Option.isSome_iff_exists.mp h
      have hname := List.find?_some hs
      exact .inl (.inl ⟨s, List.mem_of_find?_eq_some hs, by simpa using hname⟩)
    · unfold Source.MethodSymbols.param? at h
      rw [Option.isSome_map] at h
      obtain ⟨p, hp⟩ := Option.isSome_iff_exists.mp h
      have hname := List.find?_some hp
      have hmem := (List.mem_zipIdx (List.mem_of_find?_eq_some hp)).2.2
      exact .inl (.inr ⟨p.1, by rw [hmem]; exact List.getElem_mem _, by simpa using hname⟩)
    · obtain ⟨f, hf⟩ := Option.isSome_iff_exists.mp h
      have hname := List.find?_some hf
      exact .inr ⟨f, List.mem_of_find?_eq_some hf, by simpa using hname⟩

theorem le_firstFree (taken : String → Bool) (fuel n : Nat) : n ≤ firstFree taken fuel n := by
  induction fuel generalizing n with
  | zero => exact Nat.le_refl n
  | succ fuel ih =>
    unfold firstFree
    split
    · exact Nat.le_of_succ_le (ih (n + 1))
    · exact Nat.le_refl n

/-- If the taken names are among `names`, as many tries as there are names suffice. -/
theorem firstFree_free (taken : String → Bool) (fuel n : Nat) (names : List String)
    (hnames : ∀ k, n ≤ k → taken (tempName k) = true → tempName k ∈ names)
    (hlen : names.length ≤ fuel) : taken (tempName (firstFree taken fuel n)) = false := by
  induction fuel generalizing n names with
  | zero =>
    have hnil : names = [] := List.length_eq_zero_iff.mp (by omega)
    cases ht : taken (tempName n) with
    | false => exact ht
    | true =>
      have hmem := hnames n (Nat.le_refl n) ht
      rw [hnil] at hmem
      exact absurd hmem (by simp)
  | succ fuel ih =>
    unfold firstFree
    split
    · next ht =>
      have hmem := hnames n (Nat.le_refl n) ht
      refine ih (n + 1) (names.erase (tempName n)) ?_ ?_
      · intro k hk hkt
        have hne : tempName k ≠ tempName n := by
          intro heq
          have := tempName_inj heq
          omega
        exact (List.mem_erase_of_ne hne).mpr (hnames k (by omega) hkt)
      · rw [List.length_erase_of_mem hmem]
        omega
    · next ht => simpa using ht

theorem lt_nextTemp (σ : Scope) (f : Fresh) : f.temps < σ.nextTemp f :=
  le_firstFree _ _ _

theorem isDeclared_nextTemp (σ : Scope) (f : Fresh) :
    σ.symbols.isDeclared σ.method (tempName (σ.nextTemp f)) = false :=
  firstFree_free _ _ _ _ (fun _ _ h => mem_declaredNames h) (Nat.le_refl _)

/-- The next temporary has none of the names that were numbered before. -/
theorem tempName_ne_nextTemp {σ : Scope} {f : Fresh} {n : Nat} (h : n ≤ f.temps) :
    tempName n ≠ tempName (σ.nextTemp f) := by
  intro heq
  have hnumber := tempName_inj heq
  have hlt := lt_nextTemp σ f
  omega

/-! ### Counters -/

/-- Neither counter is ahead of the later one. -/
structure Fresh.Upto (f g : Fresh) : Prop where
  temps : f.temps ≤ g.temps
  labels : f.labels ≤ g.labels

namespace Fresh.Upto

theorem refl (f : Fresh) : Upto f f :=
  ⟨Nat.le_refl _, Nat.le_refl _⟩

theorem trans {f g h : Fresh} (hfg : Upto f g) (hgh : Upto g h) : Upto f h :=
  ⟨Nat.le_trans hfg.temps hgh.temps, Nat.le_trans hfg.labels hgh.labels⟩

theorem labelled (f : Fresh) : Upto f f.labelled :=
  ⟨Nat.le_refl _, Nat.le_succ _⟩

theorem drawn (σ : Scope) (f : Fresh) : Upto f (σ.drawn f) :=
  ⟨Nat.le_of_lt (lt_nextTemp σ f), Nat.le_refl _⟩

end Fresh.Upto

theorem LowersName.upto {σ : Scope} {name : String} {l : Lowered} {f f' : Fresh}
    (h : LowersName σ name f l f') : f.Upto f' := by
  cases h with
  | slot | cls => exact Fresh.Upto.refl f
  | field => exact Fresh.Upto.drawn σ f

theorem LowersIndex.upto {σ : Scope} {idx l : Lowered} {f f' : Fresh}
    (h : LowersIndex σ idx f l f') : f.Upto f' := by
  cases h with
  | literal => exact Fresh.Upto.drawn σ f
  | other => exact Fresh.Upto.refl f

theorem Lowers.upto {σ : Scope} {p : Piece} {f f' : Fresh} (h : Lowers σ p f f') :
    f.Upto f' := by
  induction h with
  | int | bool | self | selfReceiver | classReceiver | noArgs => exact Fresh.Upto.refl _
  | name h => exact h.upto
  | paren _ ih => exact ih
  | valueReceiver _ _ _ _ _ ih => exact ih
  | not _ ih | length _ ih | callValue _ _ ih | newArray _ ih => exact ih.trans (Fresh.Upto.drawn σ _)
  | newObject => exact Fresh.Upto.drawn σ _
  | logical _ _ _ ihl ihr =>
    exact (Fresh.Upto.labelled _).trans (ihl.trans ((Fresh.Upto.drawn σ _).trans ihr))
  | binary _ _ _ ihl ihr => exact ihl.trans (ihr.trans (Fresh.Upto.drawn σ _))
  | index _ _ _ _ hidx iha ihi =>
    exact iha.trans (ihi.trans (hidx.upto.trans (Fresh.Upto.drawn σ _)))
  | arg _ _ _ ihe ihrest => exact ihe.trans ihrest
  | call _ _ _ ihr ihargs => exact ihr.trans ihargs

theorem LowersCond.upto {σ : Scope} {cond : Source.Expr} {test : Code × Instr} {f f' : Fresh}
    (h : LowersCond σ cond test f f') : f.Upto f' := by
  cases h with
  | direct h _ => exact h.upto
  | value h => exact h.upto

theorem LowersStmt.upto {σ : Scope} {s : Source.Stmt} {code : Code} {f f' : Fresh}
    (h : LowersStmt σ s f code f') : f.Upto f' := by
  induction h with
  | done | assignNew | ret => exact Fresh.Upto.refl _
  | seq _ _ ihs ihrest => exact ihs.trans ihrest
  | callStmt _ h | exprStmt _ h | assignCall _ _ h | retarget _ h | copy _ h _ | putField _ _ h
  | retValue h => exact h.upto
  | store harr _ _ hidx hi hv => exact harr.upto.trans (hidx.upto.trans (hi.upto.trans hv.upto))
  | branch hcond _ _ ihd ihc =>
    exact (Fresh.Upto.labelled _).trans (hcond.upto.trans (ihd.trans ihc))
  | oneArmed hcond _ ih | loop hcond _ ih =>
    exact (Fresh.Upto.labelled _).trans (hcond.upto.trans ih)

/-! ### Labels -/

/-- Distinct labels whose numbers are `lo` or more and less than `hi`. -/
structure NumberedWithin (lo hi : Nat) (labels : List String) : Prop where
  nodup : labels.Nodup
  range : ∀ s ∈ labels, ∃ place n, lo ≤ n ∧ n < hi ∧ s = placeLabel place n

namespace NumberedWithin

variable {lo mid hi : Nat} {ls ls' : List String}

theorem nil : NumberedWithin lo hi [] :=
  ⟨List.nodup_nil, by simp⟩

theorem perm (h : NumberedWithin lo hi ls) (hp : ls.Perm ls') : NumberedWithin lo hi ls' :=
  ⟨hp.nodup_iff.mp h.nodup, fun s hs => h.range s (hp.mem_iff.mpr hs)⟩

theorem append (h : NumberedWithin lo mid ls) (h' : NumberedWithin mid hi ls') (hlo : lo ≤ mid)
    (hhi : mid ≤ hi) : NumberedWithin lo hi (ls ++ ls') := by
  refine ⟨List.nodup_append.mpr ⟨h.nodup, h'.nodup, ?_⟩, ?_⟩
  · rintro a ha b hb rfl
    obtain ⟨p, m, _, hm, rfl⟩ := h.range a ha
    obtain ⟨q, n, hn, _, heq⟩ := h'.range _ hb
    have := (placeLabel_inj heq).2
    omega
  · intro s hs
    rcases List.mem_append.mp hs with hs | hs
    · obtain ⟨p, n, hn, hn', rfl⟩ := h.range s hs
      exact ⟨p, n, hn, by omega, rfl⟩
    · obtain ⟨p, n, hn, hn', rfl⟩ := h'.range s hs
      exact ⟨p, n, by omega, hn', rfl⟩

theorem places (n : Nat) {ps : List String} (hps : ps.Nodup) :
    NumberedWithin n (n + 1) (ps.map (placeLabel · n)) := by
  refine ⟨List.Pairwise.map (placeLabel · n) ?_ hps, ?_⟩
  · intro p q hne heq
    exact hne (placeLabel_inj heq).1
  · intro s hs
    obtain ⟨p, _, rfl⟩ := List.mem_map.mp hs
    exact ⟨p, n, Nat.le_refl n, Nat.lt_succ_self n, rfl⟩

/-- A construct adds its own labels to those of its parts, wherever they stand between them. -/
theorem construct {n : Nat} (ps : List String) (hps : ps.Nodup) (h : NumberedWithin (n + 1) hi ls)
    (hhi : n + 1 ≤ hi) (hp : (ps.map (placeLabel · n) ++ ls).Perm ls') :
    NumberedWithin n hi ls' :=
  ((places n hps).append h (Nat.le_succ n) hhi).perm hp

end NumberedWithin

def Piece.code : Piece → Code
  | .expr _ _ l => l.code
  | .receiver _ _ r => r.code
  | .args _ _ code _ => code
  | .call _ _ _ _ code _ => code

theorem LowersName.numbered {σ : Scope} {name : String} {l : Lowered} {f f' : Fresh}
    (h : LowersName σ name f l f') : NumberedWithin f.labels f'.labels (labelsOf l.code) := by
  cases h <;> exact .nil

theorem LowersIndex.numbered {σ : Scope} {idx l : Lowered} {lo : Nat} {f f' : Fresh}
    (h : LowersIndex σ idx f l f') (hidx : NumberedWithin lo f.labels (labelsOf idx.code)) :
    NumberedWithin lo f'.labels (labelsOf l.code) := by
  cases h with
  | literal => simpa [Lowered.computed, Scope.drawn] using hidx
  | other => exact hidx

theorem Lowers.numbered {σ : Scope} {p : Piece} {f f' : Fresh} (h : Lowers σ p f f') :
    NumberedWithin f.labels f'.labels (labelsOf p.code) := by
  induction h with
  | int | bool | self | selfReceiver | classReceiver | noArgs => exact .nil
  | name h => exact h.numbered
  | paren _ ih => exact ih
  | valueReceiver _ _ _ _ _ ih => exact ih
  | not _ ih | length _ ih | callValue _ _ ih | newArray _ ih =>
    simpa [Piece.code, Lowered.computed, Scope.drawn] using ih
  | newObject => exact .nil
  | @logical _ op _ _ _ l r f f₁ f' hop hl hr ihl ihr =>
    have hparts := ihl.append ihr hl.upto.labels hr.upto.labels
    have hhi := Nat.le_trans hl.upto.labels hr.upto.labels
    refine NumberedWithin.construct [if op = .and then "and_end" else "or_end"]
      (by simp) hparts hhi ?_
    rw [List.map_singleton, ← skipLabel_eq]
    simp only [Piece.code, logicalCode, Flat.labelsOf_append, Flat.labelsOf_instr,
      Flat.labelsOf_label, Flat.labelsOf_nil, List.append_nil]
    exact List.perm_append_comm
  | binary _ hl hr ihl ihr =>
    have hparts := ihl.append ihr hl.upto.labels hr.upto.labels
    simpa [Piece.code, Lowered.computed, Scope.drawn] using hparts
  | index ha _ _ hi hidx iha ihi =>
    have hparts := iha.append (hidx.numbered ihi) ha.upto.labels
      (hi.upto.trans hidx.upto).labels
    simpa [Piece.code, Lowered.computed, Scope.drawn] using hparts
  | arg _ he hrest ihe ihrest =>
    simpa [Piece.code] using ihe.append ihrest he.upto.labels hrest.upto.labels
  | call hr hargs _ ihr ihargs =>
    simpa [Piece.code] using ihr.append ihargs hr.upto.labels hargs.upto.labels

theorem LowersCond.numbered {σ : Scope} {cond : Source.Expr} {test : Code × Instr} {f f' : Fresh}
    (h : LowersCond σ cond test f f') : NumberedWithin f.labels f'.labels (labelsOf test.1) := by
  cases h with
  | direct h _ => simpa [Piece.code, Lowered.computed] using h.numbered
  | value h => exact h.numbered

theorem nodup_branchPlaces : ["then", "endif"].Nodup := by decide

theorem nodup_loopPlaces : ["whilecond", "whilebody", "whileend"].Nodup := by decide

theorem labelsOf_branchCode (n : Nat) (test : Code × Instr) (c d : Code) :
    (["then", "endif"].map (placeLabel · n) ++
      (labelsOf test.1 ++ (labelsOf d ++ labelsOf c))).Perm (labelsOf (branchCode n test c d)) := by
  rw [List.perm_iff_count]
  intro s
  simp [branchCode, List.count_cons]
  omega

theorem labelsOf_loopCode (n : Nat) (test : Code × Instr) (c : Code) :
    (["whilecond", "whilebody", "whileend"].map (placeLabel · n) ++
      (labelsOf test.1 ++ labelsOf c)).Perm (labelsOf (loopCode n test c)) := by
  rw [List.perm_iff_count]
  intro s
  simp [loopCode, List.count_cons]
  omega

theorem LowersStmt.numbered {σ : Scope} {s : Source.Stmt} {code : Code} {f f' : Fresh}
    (h : LowersStmt σ s f code f') : NumberedWithin f.labels f'.labels (labelsOf code) := by
  induction h with
  | done | assignNew | ret => exact .nil
  | seq hs hrest ihs ihrest =>
    simpa using ihs.append ihrest hs.upto.labels hrest.upto.labels
  | callStmt _ h | assignCall _ _ h | copy _ h _ | putField _ _ h | retValue h =>
    simpa [Piece.code] using h.numbered
  | exprStmt _ h => exact h.numbered
  | retarget _ h => simpa [Piece.code, Lowered.computed] using h.numbered
  | store harr _ _ hi hidx hv =>
    have hindex := hidx.numbered hi.numbered
    have hfront := harr.numbered.append hindex harr.upto.labels (hi.upto.trans hidx.upto).labels
    have hparts := hfront.append hv.numbered
      (harr.upto.trans (hi.upto.trans hidx.upto)).labels hv.upto.labels
    simpa [Piece.code] using hparts
  | branch hcond hd hc ihd ihc =>
    have harms := ihd.append ihc hd.upto.labels hc.upto.labels
    have hparts := hcond.numbered.append harms hcond.upto.labels (hd.upto.trans hc.upto).labels
    exact hparts.construct _ nodup_branchPlaces (hcond.upto.trans (hd.upto.trans hc.upto)).labels
      (labelsOf_branchCode _ _ _ _)
  | oneArmed hcond hc ihc =>
    have hparts := hcond.numbered.append ihc hcond.upto.labels hc.upto.labels
    exact hparts.construct _ nodup_branchPlaces (hcond.upto.trans hc.upto).labels
      (labelsOf_branchCode _ _ _ [])
  | loop hcond hc ihc =>
    have hparts := hcond.numbered.append ihc hcond.upto.labels hc.upto.labels
    exact hparts.construct _ nodup_loopPlaces (hcond.upto.trans hc.upto).labels
      (labelsOf_loopCode _ _ _)

end JavaMinus.Lowering
