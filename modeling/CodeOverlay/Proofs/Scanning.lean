import CodeOverlay.Proofs.Spelling

namespace CodeOverlay.Json

/-!
# Reading pieces

A piece is read in the same way however it is written, and what is left is what is written of the
pieces after it.

* `Spells.readText`, `Spells.readText_signs` — a text is read back;
* `Numeral.readDecimal`, `Numeral.skipScalar` — a number is well written;
* `Spelled.exists_skipBlanks` — what is left after blanks starts with the next piece;
* `Spelled.mark`, `Spelled.text`, `Spelled.word`, `Spelled.number` — so it is with each of them.
-/

variable {ss : List Sign} {p : Piece} {ps : List Piece} {c d : Char} {cs left more : List Char}
  {halves : Bool} {steps : Nat}

/-! ### Texts -/

/-- Four hexadecimal digits are read as what they stand for. -/
theorem Quad.readQuad {ds : List Char} {n : Nat} (h : Quad ds n) (more : List Char) :
    readQuad (ds ++ more) = .ok (n, more) := by
  cases h with
  | digits ha hb hc hd =>
    simp only [List.cons_append, List.nil_append, Json.readQuad, ha, hb, hc, hd]

theorem readEscape_letter {l : Char} (h : (l, c) ∈ escapes) :
    readEscape halves (l :: cs) = .ok (c, cs) := by
  have hall : ∀ e ∈ escapes, e.1 ≠ 'u' ∧ escapes.lookup e.1 = some e.2 := by decide
  obtain ⟨hu, hlookup⟩ := hall _ h
  simp only [readEscape, if_neg hu, hlookup]

theorem readEscape_number {ds : List Char} {n : Nat} (h : Quad ds n)
    (hwhole : isLead n = false ∧ isTrail n = false) :
    readEscape halves ('u' :: (ds ++ cs)) = .ok (Char.ofNat n, cs) := by
  simp [readEscape, readNumbered, h.readQuad, hwhole]

/-- Where halves do not matter, each is read as a character of its own. -/
theorem readEscape_half {ds : List Char} {n : Nat} (h : Quad ds n)
    (hhalf : isLead n = true ∨ isTrail n = true) :
    readEscape false ('u' :: (ds ++ cs)) = .ok ('\uFFFD', cs) := by
  have hneither : ¬(isLead n = false ∧ isTrail n = false) := by
    rintro ⟨hlead, htrail⟩
    simp [hlead, htrail] at hhalf
  simp [readEscape, readNumbered, h.readQuad, hneither]

/-- Where they do, both are read together. -/
theorem readEscape_pair {ds ds' : List Char} {lead trail : Nat}
    (hlead : Quad ds lead ∧ isLead lead = true) (htrail : Quad ds' trail ∧ isTrail trail = true) :
    readEscape true ('u' :: (ds ++ '\\' :: 'u' :: (ds' ++ cs))) =
      .ok (Char.ofNat (0x10000 + (lead - 0xD800) * 0x400 + (trail - 0xDC00)), cs) := by
  simp [readEscape, readNumbered, readTrail, hlead.1.readQuad, htrail.1.readQuad, hlead.2,
    htrail.2]

/-- What is written is read as the signs, up to the quote.  Where halves do not matter, it is read
    as some text. -/
def ReadsSigns (halves : Bool) (steps : Nat) (ss : List Sign) (cs more : List Char) : Prop :=
  ∃ ds, readChars halves steps cs = .ok (ds, more) ∧ (halves = true → ss = ds.map .char)

theorem ReadsSigns.escape {ss' : List Sign} (h : ReadsSigns halves steps ss left more)
    (hd : readEscape halves cs = .ok (d, left)) (hss : halves = true → ss' = .char d :: ss) :
    ReadsSigns halves (steps + 1) ss' ('\\' :: cs) more := by
  obtain ⟨ds, hds, hsigns⟩ := h
  refine ⟨d :: ds, ?_, fun hhalves => by rw [hss hhalves, hsigns hhalves, List.map_cons]⟩
  simp [readChars, hd, hds, Except.map]

theorem ReadsSigns.plain (h : ReadsSigns halves steps ss cs more)
    (hc : c ≠ '"' ∧ c ≠ '\\' ∧ 0x20 ≤ c.toNat) :
    ReadsSigns halves (steps + 1) (.char c :: ss) (c :: cs) more := by
  obtain ⟨ds, hds, hsigns⟩ := h
  refine ⟨c :: ds, ?_, fun hhalves => by rw [hsigns hhalves, List.map_cons]⟩
  simp [readChars, hc.1, hc.2.1, Nat.not_lt.mpr hc.2.2, hds, Except.map]

/-- Where halves of characters matter, none is without the other. -/
def Whole (halves : Bool) (ss : List Sign) : Prop :=
  halves = true → ∀ n, .half n ∉ ss

theorem whole_signs {text : String} : Whole halves (signs text) := by
  simp [Whole, signs]

/-- A text is read as it is written. -/
theorem Spells.readsSigns (h : Spells ss cs) (hwhole : Whole halves ss)
    (hsteps : cs.length < steps) : ReadsSigns halves steps ss (cs ++ '"' :: more) more := by
  have htail : ∀ {s : Sign} {ss : List Sign}, Whole halves (s :: ss) → Whole halves ss :=
    fun h hhalves n hn => h hhalves n (List.mem_cons_of_mem _ hn)
  induction h generalizing steps with
  | nil =>
    obtain ⟨steps, rfl⟩ := Nat.exists_eq_add_one_of_ne_zero (Nat.ne_zero_of_lt hsteps)
    exact ⟨[], by simp [readChars], fun _ => rfl⟩
  | plain hc _ ih =>
    obtain ⟨steps, rfl⟩ := Nat.exists_eq_add_one_of_ne_zero (Nat.ne_zero_of_lt hsteps)
    exact (ih (htail hwhole) (Nat.lt_of_succ_lt_succ hsteps)).plain hc
  | letter hl _ ih =>
    obtain ⟨steps, rfl⟩ := Nat.exists_eq_add_one_of_ne_zero (Nat.ne_zero_of_lt hsteps)
    have hleft := ih (htail hwhole) (Nat.lt_of_succ_lt (Nat.lt_of_succ_lt_succ hsteps))
    exact hleft.escape (readEscape_letter hl) fun _ => rfl
  | number hn hnwhole _ ih =>
    obtain ⟨steps, rfl⟩ := Nat.exists_eq_add_one_of_ne_zero (Nat.ne_zero_of_lt hsteps)
    simp only [List.cons_append, List.append_assoc, List.length_cons, List.length_append]
      at hsteps ⊢
    exact (ih (htail hwhole) (by omega)).escape (readEscape_number hn hnwhole) fun _ => rfl
  | pair hlead htrail _ ih =>
    obtain ⟨steps, rfl⟩ := Nat.exists_eq_add_one_of_ne_zero (Nat.ne_zero_of_lt hsteps)
    simp only [List.cons_append, List.append_assoc, List.length_cons, List.length_append]
      at hsteps ⊢
    cases halves with
    | true =>
      exact (ih (htail hwhole) (by omega)).escape (readEscape_pair hlead htrail) fun _ => rfl
    | false =>
      -- each of the halves takes a step
      obtain ⟨steps, rfl⟩ : ∃ n, steps = n + 1 := ⟨steps - 1, by omega⟩
      have hleft : ReadsSigns false steps _ _ more := ih (htail hwhole) (by omega)
      have hsecond : ReadsSigns false (steps + 1) [] _ more :=
        hleft.escape (readEscape_half htrail.1 (.inr htrail.2)) nofun
      exact hsecond.escape (readEscape_half hlead.1 (.inl hlead.2)) nofun
  | half hn hhalf _ ih =>
    obtain ⟨steps, rfl⟩ := Nat.exists_eq_add_one_of_ne_zero (Nat.ne_zero_of_lt hsteps)
    simp only [List.cons_append, List.append_assoc, List.length_cons, List.length_append]
      at hsteps ⊢
    cases halves with
    | true => exact absurd List.mem_cons_self (hwhole rfl _)
    | false =>
      exact (ih (htail hwhole) (by omega)).escape (readEscape_half hn hhalf) nofun

theorem signs_injective : Function.Injective signs := fun _ _ h =>
  String.toList_injective ((List.map_inj_right fun _ _ => Sign.char.inj).mp h)

/-- **A text is read back.**  Where halves do not matter, something else may be read than was
    written, but it is read. -/
theorem Spells.readText (h : Spells ss cs) (hwhole : Whole halves ss) :
    ∃ text, readText halves (cs ++ '"' :: more) = .ok (text, more) ∧
      (halves = true → ss = signs text) := by
  have hsteps : cs.length < (cs ++ '"' :: more).length + 1 := by
    rw [List.length_append]
    omega
  obtain ⟨ds, hds, hsigns⟩ := h.readsSigns hwhole hsteps
  refine ⟨String.ofList ds, ?_, fun hhalves => ?_⟩
  · rw [Json.readText, hds]
    rfl
  · rw [hsigns hhalves, signs, String.toList_ofList]

theorem Spells.readText_signs {text : String} (h : Spells (signs text) cs) :
    Json.readText true (cs ++ '"' :: more) = .ok (text, more) := by
  obtain ⟨read, hread, hsigns⟩ := @h.readText _ _ more true whole_signs
  rw [hread, signs_injective (hsigns rfl)]

/-! ### Numbers -/

/-- What cannot go on a number. -/
def Ended (cs : List Char) : Prop :=
  ∀ c ∈ cs.head?, c.isDigit = false ∧ c ≠ '.' ∧ c ≠ 'e' ∧ c ≠ 'E'

theorem Digits.exists_cons (ds : Digits) : ∃ d more, ds.val = d :: more ∧ d.isDigit = true := by
  obtain ⟨_ | ⟨d, more⟩, hne, hdigits⟩ := ds
  · exact absurd rfl hne
  · exact ⟨d, more, rfl, hdigits d List.mem_cons_self⟩

theorem readDigits_append {atEnd : Problem} (ds : Digits)
    (hcs : ∀ c ∈ cs.head?, c.isDigit = false) :
    readDigits atEnd (ds.val ++ cs) = .ok (ds.val, cs) := by
  have hstop : cs.takeWhile Char.isDigit = [] ∧ cs.dropWhile Char.isDigit = cs := by
    cases cs with
    | nil => exact ⟨rfl, rfl⟩
    | cons c cs => simp [hcs c rfl]
  obtain ⟨_ | ⟨d, ds⟩, hne, hdigits⟩ := ds
  · exact absurd rfl hne
  · have hds := fun d hd => hdigits d (List.mem_cons_of_mem _ hd)
    rw [List.cons_append, readDigits, if_pos (hdigits d List.mem_cons_self),
      List.takeWhile_append_of_pos hds, List.dropWhile_append_of_pos hds, hstop.1, hstop.2,
      List.append_nil]

namespace Numeral

variable {n : Numeral} {atEnd : Problem}

theorem readWhole (hcs : ∀ c ∈ cs.head?, c.isDigit = false) :
    readWhole atEnd (n.whole.val ++ cs) = .ok (n.whole.val, cs) := by
  rw [Json.readWhole, readDigits_append n.whole hcs]
  split
  · rename_i h
    simp only [Except.ok.injEq, Prod.mk.injEq] at h
    have hzero := n.noLeadingZero (by rw [h.1]; rfl)
    rw [h.1] at hzero
    exact absurd hzero (by simp)
  · rfl

theorem readFraction (hcs : ∀ c ∈ cs.head?, c.isDigit = false ∧ c ≠ '.') :
    ∃ ds, readFraction atEnd (n.fractionChars ++ cs) = .ok (ds, cs) := by
  unfold fractionChars
  split
  · refine ⟨[], ?_⟩
    cases cs with
    | nil => rfl
    | cons c cs =>
      have := (hcs c rfl).2
      simp [Json.readFraction, this]
  · rename_i ds _
    exact ⟨ds.val, readDigits_append ds fun c hc => (hcs c hc).1⟩

theorem readExponent (hcs : Ended cs) :
    ∃ e, readExponent atEnd (n.exponentChars ++ cs) = .ok (e, cs) := by
  unfold exponentChars
  split
  · cases cs with
    | nil => exact ⟨0, rfl⟩
    | cons c cs =>
      have := hcs c rfl
      exact ⟨0, by simp [Json.readExponent, this.2]⟩
  · rename_i capital sign ds _
    have hds := @readDigits_append cs atEnd ds fun c hc => (hcs c hc).1
    cases sign with
    | none =>
      obtain ⟨d, ds', hd, hdigit⟩ := ds.exists_cons
      have hplus : d ≠ '+' := by
        rintro rfl
        simp at hdigit
      have hminus : d ≠ '-' := by
        rintro rfl
        simp at hdigit
      rw [hd] at hds
      simp only [List.cons_append] at hds
      simp [Json.readExponent, hd, hplus, hminus, hds, Except.map]
    | some negative =>
      cases negative <;> simp [Json.readExponent, hds, Except.map]

/-- An exponent does not go on the digits before it. -/
theorem head_exponentChars (hcs : Ended cs) :
    ∀ c ∈ (n.exponentChars ++ cs).head?, c.isDigit = false ∧ c ≠ '.' := by
  unfold exponentChars
  split
  · exact fun c hc => ⟨(hcs c hc).1, (hcs c hc).2.1⟩
  · rename_i capital _ _ _
    cases capital <;> simp

/-- Neither does a point. -/
theorem head_fractionChars (hcs : Ended cs) :
    ∀ c ∈ (n.fractionChars ++ (n.exponentChars ++ cs)).head?, c.isDigit = false := by
  unfold fractionChars
  split
  · exact fun c hc => (head_exponentChars hcs c hc).1
  · simp

/-- **A number is well written.** -/
theorem readDecimal (hcs : Ended cs) :
    ∃ d, readDecimal atEnd (n.magnitude ++ cs) = .ok (d, cs) := by
  have hfractionHead := @head_fractionChars cs n hcs
  have hexponentHead := @head_exponentChars cs n hcs
  have hwhole := @readWhole _ n atEnd hfractionHead
  obtain ⟨fraction, hfraction⟩ := @readFraction _ n atEnd hexponentHead
  obtain ⟨exponent, hexponent⟩ := @readExponent _ n atEnd hcs
  refine ⟨⟨n.whole.val, fraction, exponent⟩, ?_⟩
  rw [magnitude, List.append_assoc, List.append_assoc, Json.readDecimal, hwhole]
  simp only [bind, Except.bind, hfraction, hexponent]
  rfl

theorem skipNumber (hcs : Ended cs) : skipNumber .little (n.magnitude ++ cs) = .ok cs := by
  obtain ⟨d, hd⟩ := @readDecimal _ n Care.little.numberEnd hcs
  rw [Json.skipNumber, hd]
  rfl

theorem wordRest?_of_isDigit (h : c.isDigit = true) : wordRest? c = none := by
  have hne : ∀ {l : Char}, l.isDigit = false → c ≠ l := by
    rintro l hl rfl
    simp [h] at hl
  simp [wordRest?, hne]

/-- What starts as a number is passed over. -/
theorem skipScalar (hcs : Ended cs) :
    ∃ c left, n.chars ++ cs = c :: left ∧ (c = '-' ∨ c.isDigit = true) ∧
      skipScalar .little c left = .ok cs := by
  unfold chars
  split
  · refine ⟨'-', n.magnitude ++ cs, rfl, .inl rfl, ?_⟩
    rw [Json.skipScalar, show wordRest? '-' = none by decide]
    exact skipNumber hcs
  · obtain ⟨d, more, hd, hdigit⟩ := n.whole.exists_cons
    have hchars : n.magnitude ++ cs =
        d :: (more ++ (n.fractionChars ++ n.exponentChars) ++ cs) := by
      rw [magnitude, hd, List.cons_append, List.cons_append]
    have hminus : d ≠ '-' := by
      rintro rfl
      simp at hdigit
    refine ⟨d, _, hchars, .inr hdigit, ?_⟩
    simp only [Json.skipScalar, wordRest?_of_isDigit hdigit, if_neg hminus, if_pos hdigit]
    rw [← hchars]
    exact skipNumber hcs

end Numeral

/-! ### Words -/

theorem expectWord_append (w cs : List Char) : expectWord w (w ++ cs) = .ok cs := by
  induction w with
  | nil => rfl
  | cons c w ih => rw [List.cons_append, expectWord, if_pos rfl, ih]

/-- A word is known by its first letter. -/
theorem Word.exists_cons (w : Word) :
    ∃ c more, w.chars = c :: more ∧ c.isAlpha = true ∧ wordRest? c = some more := by
  cases w <;> exact ⟨_, _, rfl, by decide, by decide⟩

/-! ### Pieces -/

theorem skipBlanks_append {blanks : List Char} (h : ∀ c ∈ blanks, isBlank c = true)
    (hc : isBlank c = false) : skipBlanks (blanks ++ c :: cs) = c :: cs := by
  rw [skipBlanks, List.dropWhile_append_of_pos h, List.dropWhile_cons_of_neg (by simp [hc])]

/-- Only blanks are left when there are no pieces left. -/
theorem Spelled.skipBlanks_eq_nil (h : Spelled [] cs) : skipBlanks cs = [] := by
  cases h with
  | nil hblanks =>
    have hall := @List.dropWhile_append_of_pos _ _ _ [] hblanks
    rw [List.append_nil] at hall
    exact hall

/-- A piece that is no mark starts neither with a blank nor with the bracket after a list. -/
theorem Piece.Written.exists_cons (h : p.Written cs) :
    ∃ c more, cs = c :: more ∧ (p = .mark c ∨ isBlank c = false ∧ c ≠ ']') := by
  have hsolid : ∀ {c : Char}, c = '-' ∨ c.isAlphanum = true → isBlank c = false ∧ c ≠ ']' := by
    refine fun hc => ⟨Bool.eq_false_iff.mpr fun hblank => ?_, fun heq => ?_⟩
    · simp only [isBlank, Bool.or_eq_true, beq_iff_eq] at hblank
      rcases hblank with ((rfl | rfl) | rfl) | rfl <;> revert hc <;> decide
    · subst heq
      revert hc
      decide
  cases p with
  | mark c => exact ⟨c, [], h, .inl rfl⟩
  | word w =>
    obtain ⟨c, more, hw, hc, -⟩ := w.exists_cons
    exact ⟨c, more, hw ▸ h, .inr (hsolid (.inr (by simp [Char.isAlphanum, hc])))⟩
  | number n =>
    obtain ⟨c, more, hn, hc, -⟩ := @Numeral.skipScalar [] n nofun
    rw [List.append_nil] at hn
    exact ⟨c, more, hn ▸ h,
      .inr (hsolid (hc.imp_right fun hc => by simp [Char.isAlphanum, hc]))⟩
  | text ss =>
    obtain ⟨body, -, rfl⟩ := h
    exact ⟨'"', _, rfl, .inr (by decide)⟩

/-- **What is left after blanks starts with the next piece.** -/
theorem Spelled.exists_skipBlanks (h : Spelled (p :: ps) cs)
    (hp : ∀ c, p = .mark c → isBlank c = false) :
    ∃ w left, p.Written w ∧ skipBlanks cs = w ++ left ∧ Spelled ps left := by
  cases h with
  | @cons _ _ blanks w left hblanks hwritten h =>
    obtain ⟨c, more, rfl, hc⟩ := hwritten.exists_cons
    refine ⟨c :: more, left, hwritten, ?_, h⟩
    rw [List.cons_append, skipBlanks_append hblanks (hc.elim (hp c) And.left)]

theorem Spelled.mark (h : Spelled (.mark c :: ps) cs) (hc : isBlank c = false) :
    ∃ left, skipBlanks cs = c :: left ∧ Spelled ps left := by
  obtain ⟨w, left, rfl, hleft, h⟩ := h.exists_skipBlanks (by simp [hc])
  exact ⟨left, hleft, h⟩

theorem Spelled.text (h : Spelled (.text ss :: ps) cs) :
    ∃ body left, skipBlanks cs = '"' :: (body ++ '"' :: left) ∧ Spells ss body ∧
      Spelled ps left := by
  obtain ⟨w, left, ⟨body, hbody, rfl⟩, hleft, h⟩ := h.exists_skipBlanks (by simp)
  exact ⟨body, left, by simpa using hleft, hbody, h⟩

theorem Spelled.word {w : Word} (h : Spelled (.word w :: ps) cs) :
    ∃ left, skipBlanks cs = w.chars ++ left ∧ Spelled ps left := by
  obtain ⟨_, left, rfl, hleft, h⟩ := h.exists_skipBlanks (by simp)
  exact ⟨left, hleft, h⟩

theorem Spelled.number {n : Numeral} (h : Spelled (.number n :: ps) cs) :
    ∃ left, skipBlanks cs = n.chars ++ left ∧ Spelled ps left := by
  obtain ⟨_, left, rfl, hleft, h⟩ := h.exists_skipBlanks (by simp)
  exact ⟨left, hleft, h⟩

/-- A mark is read. -/
theorem Spelled.expect (h : Spelled (.mark c :: ps) cs) (hc : isBlank c = false) :
    ∃ left, expect c cs = .ok left ∧ Spelled ps left := by
  obtain ⟨left, hleft, h⟩ := h.mark hc
  exact ⟨left, by simp [Json.expect, hleft], h⟩

end CodeOverlay.Json
