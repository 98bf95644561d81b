import JavaMinus.Json.Text
import Mathlib.Data.List.TakeWhile

/-!
# Scanning undoes writing

The scanner reads the spelling of a token back as that token. Marks and texts end where they are
complete. A word, such as a number, ends only before a character that no word has, so the scanner may
still be inside the last word when all of it was read; `Stands` covers both cases.
-/

namespace JavaMinus.Json

open Decimal (natOfDigits fillWord roundBinary)

/-! ### Numbers -/

theorem natOfDigits_eq (ds : List Char) : natOfDigits ds = Nat.ofDigitChars 10 ds 0 := by
  rw [Nat.ofDigitChars_eq_foldl, natOfDigits]
  simp only [Nat.mul_comm]

theorem natOfDigits_toDigits (n : Nat) : natOfDigits (Nat.toDigits 10 n) = n := by
  rw [natOfDigits_eq, Nat.ofDigitChars_ten_toDigits]

theorem isDigit_toDigits (n : Nat) : ∀ c ∈ Nat.toDigits 10 n, c.isDigit = true :=
  fun _ hc => Nat.isDigit_of_mem_toDigits (by decide) (by decide) hc

theorem takeWhile_toDigits (n : Nat) :
    (Nat.toDigits 10 n).takeWhile Char.isDigit = Nat.toDigits 10 n :=
  List.takeWhile_eq_self_iff.mpr (isDigit_toDigits n)

theorem dropWhile_toDigits (n : Nat) : (Nat.toDigits 10 n).dropWhile Char.isDigit = [] :=
  List.dropWhile_eq_nil_iff.mpr (isDigit_toDigits n)

theorem digitChar_ne_zero {d : Nat} (hpos : 0 < d) (hlt : d < 10) : d.digitChar ≠ '0' := by
  have hall : ∀ k < 10, 0 < k → k.digitChar ≠ '0' := by decide
  exact hall d hlt hpos

/-- Only zero starts with the digit zero. -/
theorem head_toDigits {n : Nat} (hn : 0 < n) : (Nat.toDigits 10 n).head? ≠ some '0' := by
  induction n using Nat.strongRecOn with
  | ind n ih =>
    by_cases hlt : n < 10
    · rw [Nat.toDigits_of_lt_base hlt]
      simpa using digitChar_ne_zero hn hlt
    · rw [Nat.toDigits_of_base_le (by decide) (by omega), List.head?_append]
      obtain ⟨c, hc⟩ := Option.ne_none_iff_exists'.mp
        (mt List.head?_eq_none_iff.mp (Nat.toDigits_ne_nil (b := 10) (n := n / 10)))
      have hfront := ih (n / 10) (by omega) (by omega)
      rw [hc] at hfront ⊢
      exact hfront

theorem head_toDigits_ne_minus (n : Nat) : (Nat.toDigits 10 n).head? ≠ some '-' := by
  intro h
  have hdigit := isDigit_toDigits n _ (List.mem_of_head? h)
  exact absurd hdigit (by decide)

theorem le_ofDigitChars (ds : List Char) (word : Nat) : word ≤ Nat.ofDigitChars 10 ds word := by
  induction ds generalizing word with
  | nil => simp [Nat.ofDigitChars_nil]
  | cons c ds ih =>
    rw [Nat.ofDigitChars_cons]
    have := ih (10 * word + (c.toNat - '0'.toNat))
    omega

/-- A number that a word of 64 bits holds is read without cutting a digit. -/
theorem fillWord_eq {ds : List Char} {word : Nat}
    (h : Nat.ofDigitChars 10 ds word < UInt64.size) :
    fillWord word ds = (Nat.ofDigitChars 10 ds word, []) := by
  induction ds generalizing word with
  | nil => simp [fillWord, Nat.ofDigitChars_nil]
  | cons c ds ih =>
    rw [Nat.ofDigitChars_cons] at h ⊢
    have hle := le_ofDigitChars ds (10 * word + (c.toNat - '0'.toNat))
    have hlonger : word * 10 + (c.toNat - '0'.toNat) < UInt64.size := by omega
    rw [fillWord]
    simp only [hlonger, if_true]
    rw [Nat.mul_comm word 10]
    exact ih h

theorem roundBinary_le (n : Nat) : roundBinary n ≤ 2 * n + 1 := by
  have hunit : Nat.pow 2 (n.log2 - 52) ≤ n + 1 := by
    by_cases hn : n = 0
    · rw [hn]
      decide
    · calc Nat.pow 2 (n.log2 - 52) ≤ Nat.pow 2 n.log2 :=
            Nat.pow_le_pow_right (by decide) (Nat.sub_le _ _)
        _ ≤ n + 1 := Nat.le_succ_of_le (Nat.log2_self_le hn)
  have hquotient := Nat.div_mul_le_self n (Nat.pow 2 (n.log2 - 52))
  unfold roundBinary
  simp only
  split
  · rw [Nat.add_mul]
    omega
  · omega

/-- An integer of at most 64 bits is far from the greatest finite number. -/
theorem isFiniteScaled_toDigits {n : Nat} (hn : n < UInt64.size) :
    (Decimal.ofChars (Nat.toDigits 10 n)).isFiniteScaled = true := by
  have hword : fillWord 0 (Nat.toDigits 10 n) = (n, []) := by
    have hvalue := Nat.ofDigitChars_ten_toDigits (n := n)
    rw [fillWord_eq (by rw [hvalue]; exact hn), hvalue]
  have hbound : roundBinary n * roundBinary (Nat.pow 10 0) < Decimal.infinityBound := by
    have hone : roundBinary (Nat.pow 10 0) = 1 := by decide
    have hinf : 2 * UInt64.size < Decimal.infinityBound := by decide +kernel
    have hround := roundBinary_le n
    rw [hone]
    omega
  have hd : Decimal.ofChars (Nat.toDigits 10 n) = { whole := Nat.toDigits 10 n } := by
    unfold Decimal.ofChars
    rw [dropWhile_toDigits, takeWhile_toDigits]
    rfl
  rw [hd]
  unfold Decimal.isFiniteScaled
  simp only [hword, fillWord]
  rw [Bool.or_eq_true, Bool.and_eq_true]
  exact .inr ⟨rfl, decide_eq_true hbound⟩

namespace Token

theorem ofWord?_of_digit {cs : List Char} (h : ∃ c ∈ cs, c.isDigit = true) : ofWord? cs = number? cs := by
  obtain ⟨c, hc, hdigit⟩ := h
  unfold ofWord?
  have hne : ∀ ds : List Char, (ds.any (·.isDigit)) = false → (cs == ds) = false := by
    intro ds hds
    rw [beq_eq_false_iff_ne]
    rintro rfl
    exact List.any_eq_false.mp hds c hc hdigit
  rw [hne _ rfl, hne _ rfl, hne _ rfl]
  rfl

theorem exists_digit (n : Nat) : ∃ c ∈ Nat.toDigits 10 n, c.isDigit = true := by
  obtain ⟨c, hc⟩ := List.exists_mem_of_ne_nil _ (Nat.toDigits_ne_nil (b := 10) (n := n))
  exact ⟨c, hc, isDigit_toDigits n c hc⟩

/-- The whole part of a number has no superfluous zero. -/
theorem leading_toDigits (n : Nat) :
    ((Nat.toDigits 10 n).isEmpty ||
      ((Nat.toDigits 10 n).head? == some '0' && (Nat.toDigits 10 n).length != 1)) = false := by
  have hne : (Nat.toDigits 10 n).isEmpty = false := by
    simp
  rw [hne, Bool.false_or]
  by_cases hn : n = 0
  · rw [hn]
    rfl
  · have hhead := head_toDigits (Nat.pos_of_ne_zero hn)
    rw [beq_eq_false_iff_ne.mpr hhead]
    rfl

theorem number?_toDigits {n : Nat} (hn : n < UInt64.size) :
    number? (Nat.toDigits 10 n) = some (.int n) := by
  have hsign : ((Nat.toDigits 10 n).head? == some '-') = false :=
    beq_eq_false_iff_ne.mpr (head_toDigits_ne_minus n)
  unfold number?
  simp only [hsign, Bool.false_eq_true, if_false, takeWhile_toDigits, dropWhile_toDigits,
    leading_toDigits, isFiniteScaled_toDigits hn, natOfDigits_toDigits]
  simp

theorem number?_minus {n : Nat} (hpos : 0 < n) (hn : n < UInt64.size) :
    number? ('-' :: Nat.toDigits 10 n) = some (.int (-(n : Int))) := by
  have hzero : (Nat.toDigits 10 n == ['0']) = false := by
    rw [beq_eq_false_iff_ne]
    intro h
    exact head_toDigits hpos (by rw [h]; rfl)
  unfold number?
  simp only [List.head?_cons, beq_self_eq_true, if_true, List.drop_succ_cons, List.drop_zero,
    takeWhile_toDigits, dropWhile_toDigits, leading_toDigits, isFiniteScaled_toDigits hn,
    natOfDigits_toDigits, hzero]
  simp

theorem ofWord?_intChars {n : Int} (hn : n.natAbs < UInt64.size) :
    ofWord? (intChars n) = some (.int n) := by
  obtain ⟨c, hc, hdigit⟩ := exists_digit n.natAbs
  unfold intChars
  by_cases hneg : n < 0
  · rw [if_pos hneg, ofWord?_of_digit ⟨c, List.mem_cons_of_mem _ hc, hdigit⟩,
      number?_minus (by omega) hn]
    congr 2
    omega
  · rw [if_neg hneg, ofWord?_of_digit ⟨c, hc, hdigit⟩, number?_toDigits hn]
    congr 2
    omega

/-! ### Words -/

theorem scanIdle_word {c : Char} (hc : isWordChar c = true) (done : List Token) :
    scanIdle done c = some (done, .word [c]) := by
  have hne : ∀ d, isWordChar d = false → (c == d) = false := by
    intro d hd
    rw [beq_eq_false_iff_ne]
    rintro rfl
    rw [hd] at hc
    cases hc
  have hblank : isBlank c = false := by
    unfold isBlank
    rw [hne _ (by decide), hne _ (by decide), hne _ (by decide), hne _ (by decide)]
    rfl
  unfold scanIdle
  rw [hblank, hne '[' (by decide), hne ']' (by decide), hne '\x7b' (by decide),
    hne '\x7d' (by decide), hne ',' (by decide), hne ':' (by decide), hne '"' (by decide), hc]
  rfl

theorem scan_wordChars {cs : List Char} (h : ∀ c ∈ cs, isWordChar c = true) (done : List Token)
    (seen : List Char) :
    cs.foldlM scanChar (done, .word seen) = some (done, .word (cs.reverse ++ seen)) := by
  induction cs generalizing seen with
  | nil => rfl
  | cons c cs ih =>
    have hc : scanChar (done, .word seen) c = some (done, .word (c :: seen)) := by
      simp only [scanChar, h c List.mem_cons_self, if_true]
    rw [List.foldlM_cons, hc, Option.bind_eq_bind, Option.bind_some,
      ih (fun d hd => h d (List.mem_cons_of_mem c hd)), List.reverse_cons, List.append_assoc]
    rfl

theorem scan_word {cs : List Char} (hne : cs ≠ []) (h : ∀ c ∈ cs, isWordChar c = true)
    (done : List Token) : cs.foldlM scanChar (done, .idle) = some (done, .word cs.reverse) := by
  cases cs with
  | nil => exact absurd rfl hne
  | cons c cs =>
    have hc : scanChar (done, .idle) c = some (done, .word [c]) :=
      scanIdle_word (h c List.mem_cons_self) done
    rw [List.foldlM_cons, hc, Option.bind_eq_bind, Option.bind_some,
      scan_wordChars (fun d hd => h d (List.mem_cons_of_mem c hd)), List.reverse_cons]

theorem isWordChar_of_isDigit {c : Char} (h : c.isDigit = true) : isWordChar c = true := by
  simp [isWordChar, Char.isAlphanum, h]

theorem isWordChar_intChars (n : Int) : ∀ c ∈ intChars n, isWordChar c = true := by
  have hdigits : ∀ c ∈ Nat.toDigits 10 n.natAbs, isWordChar c = true :=
    fun c hc => isWordChar_of_isDigit (isDigit_toDigits _ c hc)
  intro c hc
  unfold intChars at hc
  split at hc
  · rcases List.mem_cons.mp hc with rfl | hc
    · decide
    · exact hdigits c hc
  · exact hdigits c hc

theorem intChars_ne_nil (n : Int) : intChars n ≠ [] := by
  unfold intChars
  split
  · exact List.cons_ne_nil _ _
  · exact Nat.toDigits_ne_nil

/-! ### Texts -/

theorem hexDigit?_hexChar {n : Nat} (hn : n < 16) : hexDigit? (hexChar n) = some n := by
  have hall : ∀ k < 16, hexDigit? (hexChar k) = some k := by decide
  exact hall n hn

/-- A numbered escape of a control character. -/
theorem scan_control {c : Char} (hc : c.toNat < 0x20) (done : List Token) (seen : List Char) :
    ['\\', 'u', '0', '0', hexChar (c.toNat / 16), hexChar (c.toNat % 16)].foldlM scanChar
      (done, .text (some seen)) = some (done, .text (some (c :: seen))) := by
  have hhigh := hexDigit?_hexChar (n := c.toNat / 16) (by omega)
  have hlow := hexDigit?_hexChar (n := c.toNat % 16) (by omega)
  have hvalue : c.toNat / 16 * 16 + c.toNat % 16 = c.toNat := Nat.div_add_mod' _ _
  have hplain : isHighHalf c.toNat = false ∧ isLowHalf c.toNat = false := by
    unfold isHighHalf isLowHalf
    constructor <;> simp <;> omega
  have hdone : finishCode (some seen) none c.toNat = .text (some (c :: seen)) := by
    unfold finishCode
    simp only [hplain, Bool.false_eq_true, if_false, Char.ofNat_toNat]
    rfl
  have hzero : hexDigit? '0' = some 0 := by decide
  simp [scanChar, scanText, scanEscape, hzero, hhigh, hlow, hvalue, hdone]

/-- The characters with an escape of one letter. -/
def lettered : List Char :=
  ['"', '\\', '\x08', '\x0c', '\n', '\r', '\t']

theorem escapeChar_of_not_lettered {c : Char} (h : c ∉ lettered) :
    escapeChar c =
      if c.toNat < 0x20 then
        ['\\', 'u', '0', '0', hexChar (c.toNat / 16), hexChar (c.toNat % 16)]
      else [c] := by
  simp only [lettered, List.mem_cons, List.not_mem_nil, or_false, not_or] at h
  unfold escapeChar
  simp only [beq_iff_eq, h, if_false]

theorem scan_escapeChar (c : Char) (done : List Token) (seen : List Char) :
    (escapeChar c).foldlM scanChar (done, .text (some seen)) =
      some (done, .text (some (c :: seen))) := by
  by_cases hletter : c ∈ lettered
  · simp only [lettered, List.mem_cons, List.not_mem_nil, or_false] at hletter
    rcases hletter with rfl | rfl | rfl | rfl | rfl | rfl | rfl <;> rfl
  · rw [escapeChar_of_not_lettered hletter]
    split
    · next hcontrol => exact scan_control hcontrol done seen
    · next hcontrol =>
      simp only [lettered, List.mem_cons, not_or] at hletter
      simp [scanChar, scanText, Seen.add, hletter, hcontrol]

theorem scan_escaped (cs : List Char) (done : List Token) (seen : List Char) :
    (cs.flatMap escapeChar).foldlM scanChar (done, .text (some seen)) =
      some (done, .text (some (cs.reverse ++ seen))) := by
  induction cs generalizing seen with
  | nil => rfl
  | cons c cs ih =>
    rw [List.flatMap_cons, List.foldlM_append, scan_escapeChar, Option.bind_eq_bind,
      Option.bind_some, ih, List.reverse_cons, List.append_assoc]
    rfl

/-! ### Tokens in a row -/

/-- Where the scanner may stand when it has read the tokens `done`, newest first: behind them, or
still in the last one if that is a word. -/
inductive Stands : List Token → List Token × Scan → Prop
  | idle (done : List Token) : Stands done (done, .idle)
  | word {done seen t} : ofWord? seen.reverse = some t → Stands (t :: done) (done, .word seen)

theorem Stands.delimit {done : List Token} {s : List Token × Scan} {c : Char}
    (h : Stands done s) (hc : isWordChar c = false) : scanChar s c = scanIdle done c := by
  cases h with
  | idle => rfl
  | word ht =>
    simp only [scanChar, hc, Bool.false_eq_true, if_false]
    rw [ht]
    rfl

theorem Stands.scanEnd {done : List Token} {s : List Token × Scan} (h : Stands done s) :
    scanEnd s = some done.reverse := by
  cases h with
  | idle => rfl
  | word ht =>
    simp only [Token.scanEnd, ht, Option.map_some]

/-- A token that ends with its last character: a mark or a text. -/
def isClosed : Token → Bool
  | .openArr | .closeArr | .openObj | .closeObj | .comma | .colon | .text _ | .brokenText => true
  | _ => false

theorem scan_closed {t : Token} (ht : t.isClosed = true) {done : List Token}
    {s : List Token × Scan} (hs : Stands done s) :
    t.write.foldlM scanChar s = some (t :: done, .idle) := by
  have hmark : ∀ c rest, isWordChar c = false →
      (c :: rest).foldlM scanChar s = scanIdle done c >>= fun s' => rest.foldlM scanChar s' := by
    intro c rest hc
    rw [List.foldlM_cons, hs.delimit hc]
  cases t with
  | openArr | closeArr | openObj | closeObj | comma | colon => exact hmark _ [] (by decide)
  | text value =>
    show ('"' :: (value.toList.flatMap escapeChar ++ ['"'])).foldlM scanChar s = _
    have hbody := scan_escaped value.toList done []
    rw [hmark _ _ (by decide), show scanIdle done '"' = some (done, .text (some [])) from rfl,
      Option.bind_eq_bind, Option.bind_some, List.foldlM_append, hbody, Option.bind_eq_bind,
      Option.bind_some, List.append_nil]
    show some (Seen.token (some value.toList.reverse) :: done, Scan.idle) = _
    rw [Seen.token, List.reverse_reverse, String.ofList_toList]
  | brokenText => exact hmark _ _ (by decide)
  | null | bool | int | real | vastNumber => cases ht

/-- A word that is read back. -/
def isWord : Token → Bool
  | .null | .bool _ => true
  | .int n => n.natAbs < UInt64.size
  | _ => false

theorem scan_isWord {t : Token} (ht : t.isWord = true) (done : List Token) :
    ∃ s, t.write.foldlM scanChar (done, .idle) = some s ∧ Stands (t :: done) s := by
  have hword : t.write ≠ [] ∧ (∀ c ∈ t.write, isWordChar c = true) ∧ ofWord? t.write = some t := by
    cases t with
    | null => exact ⟨List.cons_ne_nil _ _, List.all_eq_true.mp rfl, rfl⟩
    | bool b => cases b <;> exact ⟨List.cons_ne_nil _ _, List.all_eq_true.mp rfl, rfl⟩
    | int n => exact ⟨intChars_ne_nil n, isWordChar_intChars n, ofWord?_intChars (by simpa [isWord] using ht)⟩
    | openArr | closeArr | openObj | closeObj | comma | colon | real | text | brokenText
    | vastNumber => cases ht
  obtain ⟨hne, hchars, hread⟩ := hword
  exact ⟨_, scan_word hne hchars done, .word (by rw [List.reverse_reverse]; exact hread)⟩

end Token

end JavaMinus.Json
