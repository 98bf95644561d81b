import JavaMinus.Proofs.Json.Scanning

/-!
# Reading undoes writing

The text of a value is read back as that value, provided its numbers are integers that 64 bits hold.
The scanner gives back the tokens, and the stack machine delivers the value that they came from to
whatever surrounds it. For such values, room for nesting is a matter of depth alone.
-/

namespace JavaMinus.Json

mutual

/-- Everything in the value is readable, and its numbers are integers of at most 64 bits. -/
def isPlain : Json → Bool
  | .unreadable | .real _ => false
  | .null | .bool _ | .str _ => true
  | .int n => n.natAbs < UInt64.size
  | .arr items => plainItems items
  | .obj fields => plainFields fields

def plainItems : List Json → Bool
  | [] => true
  | j :: rest => isPlain j && plainItems rest

def plainFields : List (String × Json) → Bool
  | [] => true
  | (_, j) :: rest => isPlain j && plainFields rest

end

theorem plainItems_iff {items : List Json} :
    plainItems items = true ↔ ∀ j ∈ items, j.isPlain = true := by
  induction items with
  | nil => simp [plainItems]
  | cons j rest ih => rw [plainItems, Bool.and_eq_true, ih, List.forall_mem_cons]

/-! ### From the text to the tokens -/

namespace Token

/-- Behind the tokens `done`, the spelling of `ts` is read as `ts`. -/
def Scans (s : List Token × Scan) (done ts : List Token) : Prop :=
  ∃ s', (ts.flatMap write).foldlM scanChar s = some s' ∧ Stands (ts.reverse ++ done) s'

theorem Scans.nil {s : List Token × Scan} {done : List Token} (h : Stands done s) :
    Scans s done [] :=
  ⟨s, rfl, h⟩

theorem Scans.closed {s : List Token × Scan} {done ts : List Token} {t : Token}
    (ht : t.isClosed = true) (hs : Stands done s) (h : Scans (t :: done, .idle) (t :: done) ts) :
    Scans s done (t :: ts) := by
  obtain ⟨s', hread, hstands⟩ := h
  refine ⟨s', ?_, ?_⟩
  · rw [List.flatMap_cons, List.foldlM_append, scan_closed ht hs]
    exact hread
  · rw [List.reverse_cons, List.append_assoc]
    exact hstands

theorem Scans.word {done : List Token} {t : Token} (ht : t.isWord = true) :
    Scans (done, .idle) done [t] := by
  obtain ⟨s, hread, hstands⟩ := scan_isWord ht done
  refine ⟨s, ?_, hstands⟩
  rw [List.flatMap_cons, List.flatMap_nil, List.append_nil]
  exact hread

theorem Scans.append {s : List Token × Scan} {done ts us : List Token} (h : Scans s done ts)
    (hnext : ∀ s', Stands (ts.reverse ++ done) s' → Scans s' (ts.reverse ++ done) us) :
    Scans s done (ts ++ us) := by
  obtain ⟨s₁, hread, hstands⟩ := h
  obtain ⟨s₂, hread', hstands'⟩ := hnext s₁ hstands
  refine ⟨s₂, ?_, ?_⟩
  · rw [List.flatMap_append, List.foldlM_append, hread]
    exact hread'
  · rw [List.reverse_append, List.append_assoc]
    exact hstands'

end Token

open Token (Scans Scan Stands)

mutual

theorem scans_tokens : ∀ (j : Json), j.isPlain = true → ∀ done, Scans (done, .idle) done j.tokens
  | .null, _, _ => .word rfl
  | .bool _, _, _ => .word rfl
  | .int _, h, _ => .word h
  | .str _, _, done => .closed rfl (.idle done) (.nil (.idle _))
  | .arr [], _, done => .closed rfl (.idle done) (.closed rfl (.idle _) (.nil (.idle _)))
  | .arr (j :: rest), h, done => by
    obtain ⟨hj, hrest⟩ := Bool.and_eq_true_iff.mp h
    rw [tokens, List.cons_append]
    refine .closed rfl (.idle done) ((scans_tokens j hj _).append fun s hs => ?_)
    exact scans_tokensItems rest hrest _ s hs
  | .obj [], _, done => .closed rfl (.idle done) (.closed rfl (.idle _) (.nil (.idle _)))
  | .obj ((key, j) :: rest), h, done => by
    obtain ⟨hj, hrest⟩ := Bool.and_eq_true_iff.mp h
    rw [tokens, List.cons_append, List.cons_append, List.cons_append]
    refine .closed rfl (.idle done) (.closed rfl (.idle _) (.closed rfl (.idle _) ?_))
    refine (scans_tokens j hj _).append fun s hs => ?_
    exact scans_tokensFields rest hrest _ s hs

theorem scans_tokensItems : ∀ (items : List Json), plainItems items = true →
    ∀ done s, Stands done s → Scans s done (tokensItems items)
  | [], _, _, _, hs => .closed rfl hs (.nil (.idle _))
  | j :: rest, h, done, s, hs => by
    obtain ⟨hj, hrest⟩ := Bool.and_eq_true_iff.mp h
    rw [tokensItems, List.cons_append]
    refine .closed rfl hs ((scans_tokens j hj _).append fun s' hs' => ?_)
    exact scans_tokensItems rest hrest _ s' hs'

theorem scans_tokensFields : ∀ (fields : List (String × Json)), plainFields fields = true →
    ∀ done s, Stands done s → Scans s done (tokensFields fields)
  | [], _, _, _, hs => .closed rfl hs (.nil (.idle _))
  | (key, j) :: rest, h, done, s, hs => by
    obtain ⟨hj, hrest⟩ := Bool.and_eq_true_iff.mp h
    rw [tokensFields, List.cons_append, List.cons_append, List.cons_append]
    refine .closed rfl hs (.closed rfl (.idle _) (.closed rfl (.idle _) ?_))
    refine (scans_tokens j hj _).append fun s' hs' => ?_
    exact scans_tokensFields rest hrest _ s' hs'

end

theorem scan_tokens {j : Json} (h : j.isPlain = true) :
    Token.scan (j.tokens.flatMap Token.write) = some j.tokens := by
  obtain ⟨s, hread, hstands⟩ := scans_tokens j h []
  unfold Token.scan
  rw [hread, Option.bind_some, hstands.scanEnd, List.append_nil, List.reverse_reverse]

/-! ### From the tokens to the value -/

theorem step_firstItem {j : Json} (stack : List Frame) (ts : List Token) :
    (j.tokens ++ ts).foldlM Parse.step (.firstItem stack) =
      (j.tokens ++ ts).foldlM Parse.step (.value (.arr [] :: stack)) := by
  cases j with
  | arr items => cases items <;> rfl
  | obj fields => cases fields <;> rfl
  | unreadable | null | bool | int | real | str => rfl

mutual

/-- A value is delivered to what surrounds it. -/
theorem parse_tokens : ∀ (j : Json) (stack : List Frame) (ts : List Token),
    (j.tokens ++ ts).foldlM Parse.step (.value stack) =
      ts.foldlM Parse.step (Parse.deliver j stack)
  | .unreadable, _, _ | .null, _, _ | .bool _, _, _ | .int _, _, _ | .real _, _, _ | .str _, _, _
  | .arr [], _, _ | .obj [], _, _ => rfl
  | .arr (j :: rest), stack, ts => by
    have hfirst := step_firstItem (j := j) stack (tokensItems rest ++ ts)
    rw [tokens, List.append_assoc]
    show (j.tokens ++ (tokensItems rest ++ ts)).foldlM Parse.step (.firstItem stack) = _
    rw [hfirst, parse_tokens j, Parse.deliver]
    exact parse_tokensItems rest [j] stack ts
  | .obj ((key, j) :: rest), stack, ts => by
    rw [tokens, List.append_assoc]
    show (j.tokens ++ (tokensFields rest ++ ts)).foldlM Parse.step
      (.value (.obj (some []) key :: stack)) = _
    rw [parse_tokens j, Parse.deliver]
    exact parse_tokensFields rest [(key, j)] stack ts

theorem parse_tokensItems : ∀ (items done : List Json) (stack : List Frame) (ts : List Token),
    (tokensItems items ++ ts).foldlM Parse.step (.items done stack) =
      ts.foldlM Parse.step (Parse.deliver (.arr (done.reverse ++ items)) stack)
  | [], done, stack, ts => by
    rw [List.append_nil]
    rfl
  | j :: rest, done, stack, ts => by
    rw [tokensItems, List.append_assoc]
    show (j.tokens ++ (tokensItems rest ++ ts)).foldlM Parse.step (.value (.arr done :: stack)) = _
    rw [parse_tokens j, Parse.deliver, parse_tokensItems rest, List.reverse_cons,
      List.append_assoc, List.singleton_append]

theorem parse_tokensFields : ∀ (fields done : List (String × Json)) (stack : List Frame)
    (ts : List Token),
    (tokensFields fields ++ ts).foldlM Parse.step (.fields (some done) stack) =
      ts.foldlM Parse.step (Parse.deliver (.obj (done.reverse ++ fields)) stack)
  | [], done, stack, ts => by
    rw [List.append_nil]
    rfl
  | (key, j) :: rest, done, stack, ts => by
    rw [tokensFields, List.append_assoc]
    show (j.tokens ++ (tokensFields rest ++ ts)).foldlM Parse.step
      (.value (.obj (some done) key :: stack)) = _
    rw [parse_tokens j, Parse.deliver, Option.map_some, parse_tokensFields rest, List.reverse_cons,
      List.append_assoc, List.singleton_append]

end

theorem ofTokens?_tokens (j : Json) : ofTokens? j.tokens = some j := by
  have hparse := parse_tokens j [] []
  rw [List.append_nil] at hparse
  unfold ofTokens?
  rw [hparse]
  rfl

/-- The text of a plain value is read back as that value. -/
theorem parse?_render {j : Json} (h : j.isPlain = true) : parse? j.render = some j := by
  unfold parse? render
  rw [String.toList_ofList, scan_tokens h, Option.bind_some, ofTokens?_tokens]

/-! ### Depth -/

theorem depthItems_le_iff {items : List Json} {n : Nat} :
    depthItems items ≤ n ↔ ∀ j ∈ items, j.depth ≤ n := by
  induction items with
  | nil => simp [depthItems]
  | cons j rest ih => rw [depthItems, Nat.max_le, ih, List.forall_mem_cons]

mutual

theorem fits_of_depth : ∀ (j : Json) (room : Nat), j.isPlain = true → j.depth ≤ room →
    j.fits room = true
  | .unreadable, _, h, _ | .real _, _, h, _ => absurd h Bool.false_ne_true
  | .null, _, _, _ | .bool _, _, _, _ | .int _, _, _, _ | .str _, _, _, _ => rfl
  | .arr items, room, h, hd => by
    rw [depth] at hd
    rw [fits, fitsItems_of_depth items (room - 1) h (by omega), Bool.and_true, decide_eq_true_eq]
    omega
  | .obj fields, room, h, hd => by
    rw [depth] at hd
    rw [fits, fitsFields_of_depth fields (room - 1) h (by omega), Bool.and_true, decide_eq_true_eq]
    omega

theorem fitsItems_of_depth : ∀ (items : List Json) (room : Nat), plainItems items = true →
    depthItems items ≤ room → fitsItems items room = true
  | [], _, _, _ => rfl
  | j :: rest, room, h, hd => by
    obtain ⟨hj, hrest⟩ := Bool.and_eq_true_iff.mp h
    rw [depthItems] at hd
    rw [fitsItems, fits_of_depth j room hj (by omega), fitsItems_of_depth rest room hrest (by omega)]
    rfl

theorem fitsFields_of_depth : ∀ (fields : List (String × Json)) (room : Nat),
    plainFields fields = true → depthFields fields ≤ room → fitsFields fields room = true
  | [], _, _, _ => rfl
  | (_, j) :: rest, room, h, hd => by
    obtain ⟨hj, hrest⟩ := Bool.and_eq_true_iff.mp h
    rw [depthFields] at hd
    rw [fitsFields, fits_of_depth j room hj (by omega),
      fitsFields_of_depth rest room hrest (by omega)]
    rfl

end

end JavaMinus.Json
