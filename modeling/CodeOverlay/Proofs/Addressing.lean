import CodeOverlay.Proofs.Replaying

namespace CodeOverlay

open Node

/-!
# Positions at which a document can be edited

A position counts bytes and boundaries and knows neither characters nor nodes, so it may lie inside
a character.  Everywhere else a document can be edited, and the positions at which it can be lead
to such positions again, whatever is replaced.

* `Node.ValidAt` — nothing stands against an edit at a position;
* `Aligned` — a place in the linear document that is not inside a character;
* `Node.validAt_iff` — a position is valid just if it is aligned;
* `Replaced.aligned_carry` — one replacement leads valid positions to valid positions;
* `Node.validAt_carry` — a revision does.
-/

/-- A document can be edited at a position: it does not refuse to have nothing deleted there. -/
def Node.ValidAt (n : Node) (pos : Nat) : Prop :=
  ∃ r, (Revision.start n).apply (.delete pos pos) = .ok r

instance (n : Node) (pos : Nat) : Decidable (n.ValidAt pos) :=
  match h : (Revision.start n).apply (.delete pos pos) with
  | .ok r => isTrue ⟨r, h⟩
  | .error _ => isFalse fun ⟨_, hr⟩ => nomatch h.symm.trans hr

/-! ### Places in the linear document -/

/-- Whether something starts at a token.  At a byte it does if the byte is the first one of its
    character. -/
def Token.Leads : Token → Prop
  | .byte value => value.IsUTF8FirstByte
  | _ => True

/-- A place before, between or after some tokens that is not inside a character. -/
def Aligned (ts : List Token) (pos : Nat) : Prop :=
  pos ≤ ts.length ∧ ∀ t, ts[pos]? = some t → t.Leads

variable {l r ts : List Token} {pos : Nat}

theorem aligned_nil_zero : Aligned [] 0 :=
  ⟨Nat.le_refl 0, nofun⟩

theorem aligned_cons_zero {t : Token} (h : t.Leads) : Aligned (t :: ts) 0 := by
  refine ⟨Nat.zero_le _, fun t' ht' => ?_⟩
  obtain rfl := Option.some.inj ht'
  exact h

/-- A place after the first of two lists of tokens is one in the second. -/
theorem aligned_append_right : Aligned (l ++ r) (l.length + pos) ↔ Aligned r pos := by
  have hlength : l.length + pos ≤ (l ++ r).length ↔ pos ≤ r.length := by
    rw [List.length_append]
    omega
  rw [Aligned, Aligned, hlength, List.getElem?_append_right (Nat.le_add_right _ _),
    Nat.add_sub_cancel_left]

/-- The place at which the second of two lists of tokens begins. -/
theorem aligned_append_length : Aligned (l ++ r) l.length ↔ Aligned r 0 := by
  show Aligned (l ++ r) (l.length + 0) ↔ _
  exact aligned_append_right

namespace Aligned

/-- A place in the first of two lists of tokens, or at its end, stays one whatever follows. -/
theorem append (h : Aligned l pos) (hr : Aligned r 0) : Aligned (l ++ r) pos := by
  rcases Nat.lt_or_ge pos l.length with hlt | hge
  · refine ⟨by rw [List.length_append]; omega, fun t ht => ?_⟩
    rw [List.getElem?_append_left hlt] at ht
    exact h.2 t ht
  · obtain rfl : pos = l.length := Nat.le_antisymm h.1 hge
    exact aligned_append_length.mpr hr

/-- It was one before anything followed. -/
theorem of_append (h : Aligned (l ++ r) pos) (hle : pos ≤ l.length) : Aligned l pos := by
  refine ⟨hle, fun t ht => h.2 t ?_⟩
  rw [List.getElem?_append_left (List.getElem?_eq_some_iff.mp ht).1]
  exact ht

end Aligned

/-! ### Texts and nodes -/

/-- A text starts with the first byte of a character. -/
theorem aligned_textTokens_zero (chars : List Char) : Aligned (textTokens chars) 0 := by
  cases chars with
  | nil => exact aligned_nil_zero
  | cons c cs =>
    refine ⟨Nat.zero_le _, fun t ht => ?_⟩
    have hsize := c.utf8Size_pos
    rw [textTokens, List.flatMap_cons, List.map_append,
      List.getElem?_append_left (by simpa using hsize)] at ht
    obtain ⟨value, hvalue, rfl⟩ := Option.map_eq_some_iff.mp (List.getElem?_map.symm.trans ht)
    obtain ⟨_, rfl⟩ := List.getElem?_eq_some_iff.mp hvalue
    exact UInt8.isUTF8FirstByte_getElem_utf8EncodeChar.mpr rfl

/-- Before its end, only the place before a character is not inside it. -/
theorem eq_zero_of_aligned_char {c : Char} (h : Aligned (textTokens [c]) pos)
    (hlt : pos < c.utf8Size) : pos = 0 := by
  have hbound : pos < (String.utf8EncodeChar c).length := by
    rw [String.length_utf8EncodeChar]
    exact hlt
  have hbyte : (textTokens [c])[pos]? = some (.byte (String.utf8EncodeChar c)[pos]) := by
    rw [textTokens, List.flatMap_singleton, List.getElem?_map, List.getElem?_eq_getElem hbound]
    rfl
  exact UInt8.isUTF8FirstByte_getElem_utf8EncodeChar.mp (h.2 _ hbyte)

/-- **Texts.**  The aligned places are those between two characters and the two ends. -/
theorem aligned_textTokens_iff {chars : List Char} :
    Aligned (textTokens chars) pos ↔
      ∃ before after, chars = before ++ after ∧ extent Char.utf8Size before = pos := by
  constructor
  · intro h
    induction chars generalizing pos with
    | nil => exact ⟨[], [], rfl, (Nat.le_zero.mp h.1).symm⟩
    | cons c cs ih =>
      have hlength : (textTokens [c]).length = c.utf8Size := by simp
      rw [← List.singleton_append, textTokens_append] at h
      rcases Nat.lt_or_ge pos c.utf8Size with hlt | hge
      · obtain rfl := eq_zero_of_aligned_char (h.of_append (by omega)) hlt
        exact ⟨[], c :: cs, rfl, rfl⟩
      · obtain ⟨p, rfl⟩ := Nat.exists_eq_add_of_le hge
        rw [← hlength, aligned_append_right] at h
        obtain ⟨before, after, rfl, rfl⟩ := ih h
        exact ⟨c :: before, after, rfl, rfl⟩
  · rintro ⟨before, after, rfl, rfl⟩
    rw [textTokens_append, ← length_textTokens, aligned_append_length]
    exact aligned_textTokens_zero after

theorem aligned_flatMap_enclosed_zero (ns : List Node) : Aligned (ns.flatMap enclosed) 0 := by
  cases ns with
  | nil => exact aligned_nil_zero
  | cons n ns => exact aligned_cons_zero trivial

/-- What is put in starts with a boundary or the first byte of a character. -/
theorem Replacement.aligned_tokens_zero (new : Replacement) : Aligned new.tokens 0 := by
  cases new with
  | empty => exact aligned_nil_zero
  | text inserted => exact aligned_textTokens_zero _
  | nodes inserted => exact aligned_flatMap_enclosed_zero inserted

/-- What is aligned in the content of one of several consecutive nodes is aligned in them. -/
theorem Aligned.within {n : Node} (ns ms : List Node) (h : Aligned n.tokens pos) :
    Aligned ((ns ++ n :: ms).flatMap enclosed) (extent size ns + 1 + pos) := by
  have hcontent : Aligned (n.tokens ++ .closing :: ms.flatMap enclosed) pos :=
    h.append (aligned_cons_zero trivial)
  have htokens : (ns ++ n :: ms).flatMap enclosed =
      ns.flatMap enclosed ++ [Token.opening n.tag] ++
        (n.tokens ++ .closing :: ms.flatMap enclosed) := by
    simp [enclosed]
  have hlength : (ns.flatMap enclosed ++ [Token.opening n.tag]).length = extent size ns + 1 := by
    rw [List.length_append, length_flatMap_enclosed, List.length_singleton]
  rw [htokens, ← hlength, aligned_append_right]
  exact hcontent

/-- **Nodes.**  The aligned places among consecutive nodes are those between two of them, the two
    ends, and those in the content of one of them. -/
theorem aligned_flatMap_enclosed_iff {children : List Node} :
    Aligned (children.flatMap enclosed) pos ↔
      (∃ ns ms, children = ns ++ ms ∧ extent size ns = pos) ∨
        ∃ ns n ms p, children = ns ++ n :: ms ∧ pos = extent size ns + 1 + p ∧
          Aligned n.tokens p := by
  constructor
  · intro h
    induction children generalizing pos with
    | nil => exact .inl ⟨[], [], rfl, (Nat.le_zero.mp h.1).symm⟩
    | cons n ms ih =>
      rw [List.flatMap_cons] at h
      rcases Nat.lt_or_ge pos n.size with hlt | hge
      · cases pos with
        | zero => exact .inl ⟨[], n :: ms, rfl, rfl⟩
        | succ p =>
          -- the last place in the node is before its closing boundary
          have hn := n.size_eq
          have hp : Aligned (n.tokens ++ [.closing]) p := by
            have hinside : Aligned n.enclosed (p + 1) :=
              h.of_append (by rw [length_enclosed]; omega)
            rw [enclosed, ← List.singleton_append, Nat.add_comm] at hinside
            exact aligned_append_right.mp hinside
          exact .inr ⟨[], n, ms, p, rfl, by rw [extent_nil]; omega,
            hp.of_append (by rw [length_tokens]; omega)⟩
      · obtain ⟨p, rfl⟩ := Nat.exists_eq_add_of_le hge
        rw [← length_enclosed, aligned_append_right] at h
        obtain ⟨ns, ms, rfl, rfl⟩ | ⟨ns, m, ms, p, rfl, rfl, hp⟩ := ih h
        · exact .inl ⟨n :: ns, ms, rfl, rfl⟩
        · exact .inr ⟨n :: ns, m, ms, p, rfl, by rw [extent_cons]; omega, hp⟩
  · rintro (⟨ns, ms, rfl, rfl⟩ | ⟨ns, n, ms, p, rfl, rfl, hp⟩)
    · rw [List.flatMap_append, ← length_flatMap_enclosed, aligned_append_length]
      exact aligned_flatMap_enclosed_zero ms
    · exact hp.within ns ms

/-! ### Valid positions -/

variable {new : Replacement} {n n' : Node} {start stop : Nat}

/-- A range that is replaced starts and ends outside of characters. -/
theorem Node.Replaced.aligned (h : Replaced new n start stop n') :
    Aligned n.tokens start ∧ Aligned n.tokens stop := by
  induction h with
  | @text tag l m r inserted h =>
    rw [tokens_leaf, String.toList_ofList]
    exact ⟨aligned_textTokens_iff.mpr ⟨l, m ++ r, List.append_assoc l m r, rfl⟩,
      aligned_textTokens_iff.mpr ⟨l ++ m, r, rfl, rfl⟩⟩
  | @nodes tag l m r inserted h =>
    rw [tokens_branch]
    exact ⟨aligned_flatMap_enclosed_iff.mpr (.inl ⟨l, m ++ r, List.append_assoc l m r, rfl⟩),
      aligned_flatMap_enclosed_iff.mpr (.inl ⟨l ++ m, r, rfl, rfl⟩)⟩
  | @within tag l r n n' start stop h ih =>
    rw [tokens_branch]
    exact ⟨ih.1.within l r, ih.2.within l r⟩

/-- Outside of characters nothing can be replaced by nothing. -/
theorem Node.exists_replaced_of_aligned (h : Aligned n.tokens pos) :
    ∃ n', Replaced .empty n pos pos n' := by
  induction n using Node.induct generalizing pos with
  | leaf tag text =>
    obtain ⟨before, after, htext, rfl⟩ := aligned_textTokens_iff.mp (tokens_leaf tag text ▸ h)
    have hreplaced : Replaced .empty (leaf tag (.ofList (before ++ [] ++ after)))
        (extent Char.utf8Size before) (extent Char.utf8Size (before ++ [])) _ := .text rfl
    rw [List.append_nil, ← htext, String.ofList_toList] at hreplaced
    exact ⟨_, hreplaced⟩
  | branch tag children ih =>
    rw [tokens_branch, aligned_flatMap_enclosed_iff] at h
    obtain ⟨ns, ms, rfl, rfl⟩ | ⟨ns, m, ms, p, rfl, rfl, hp⟩ := h
    · have hreplaced : Replaced .empty (branch tag (ns ++ [] ++ ms)) (extent size ns)
          (extent size (ns ++ [])) _ := .nodes rfl
      rw [List.append_nil] at hreplaced
      exact ⟨_, hreplaced⟩
    · obtain ⟨m', hm'⟩ := ih m (by simp) hp
      exact ⟨_, hm'.within⟩

theorem Node.validAt_iff_replace : n.ValidAt pos ↔ ∃ n', n.replace .empty pos pos = .ok n' := by
  have hdoc := Revision.apply_replace (.start n) ⟨pos, pos, .empty⟩
  constructor
  · rintro ⟨r, hr⟩
    exact ⟨r.doc, hdoc.symm.trans (map_eq_ok_iff.mpr ⟨r, hr, rfl⟩)⟩
  · rintro ⟨n', hn'⟩
    obtain ⟨r, hr, -⟩ := map_eq_ok_iff.mp (hdoc.trans hn')
    exact ⟨r, hr⟩

/-- **Valid positions** are those that are not inside a character: between two children of the node
    that holds the position, or between two characters of its text. -/
theorem Node.validAt_iff : n.ValidAt pos ↔ Aligned n.tokens pos := by
  rw [validAt_iff_replace]
  constructor
  · rintro ⟨n', h⟩
    exact (replace_eq_ok_iff.mp h).aligned.1
  · intro h
    obtain ⟨n', hreplaced⟩ := exists_replaced_of_aligned h
    exact ⟨n', replace_eq_ok_iff.mpr hreplaced⟩

/-! ### Where valid positions lead -/

/-- A position goes to the start of the range if it does not stay before it, or goes along with
    the end of the range. -/
theorem Shift.carry_replace_cases (hle : start ≤ stop) (size pos : Nat) (bias : Bias) :
    (pos < start ∧ (Shift.replace start stop size).carry pos bias = pos) ∨
      (Shift.replace start stop size).carry pos bias = start ∨
      (Shift.replace start stop size).carry pos bias = start + size + (pos - stop) := by
  unfold Shift.replace
  by_cases hkeep : start = stop ∧ size = 0
  · rw [if_pos hkeep]
    have hcarry : Shift.keep.carry pos bias = pos := rfl
    omega
  · rw [if_neg hkeep]
    have hcarry := carry_splice_cases start (stop - start) size pos bias
    omega

/-- **One replacement** leads aligned positions to aligned positions. -/
theorem Node.Replaced.aligned_carry (h : Replaced new n start stop n') (hpos : Aligned n.tokens pos)
    (bias : Bias) :
    Aligned n'.tokens ((Shift.replace start stop new.size).carry pos bias) := by
  have halign := h.aligned
  have hle := h.range_le.1
  obtain ⟨before, removed, after, hn, hn', hstart, hstop, -⟩ := h.split
  have hafter : Aligned after 0 := by
    have hend := halign.2
    rw [hn, ← hstop] at hend
    exact aligned_append_length.mp hend
  -- what comes after the start of the range is what is put in, and then what was after the range
  have hput : Aligned (new.tokens ++ after) 0 := new.aligned_tokens_zero.append hafter
  rw [hn', List.append_assoc]
  obtain ⟨hlt, hcarry⟩ | hcarry | hcarry := Shift.carry_replace_cases hle new.size pos bias
  · rw [hn, List.append_assoc] at hpos
    rw [hcarry]
    exact (hpos.of_append (by omega)).append hput
  · rw [hcarry, ← hstart]
    exact aligned_append_length.mpr hput
  · have hrest : Aligned after (pos - stop) := by
      rcases Nat.le_total pos stop with hin | hout
      · rw [Nat.sub_eq_zero_of_le hin]
        exact hafter
      · obtain ⟨p, rfl⟩ := Nat.exists_eq_add_of_le hout
        rw [hn, ← hstop, aligned_append_right] at hpos
        rw [Nat.add_sub_cancel_left]
        exact hpos
    rw [hcarry, ← hstart, ← new.length_tokens, Nat.add_assoc, aligned_append_right,
      aligned_append_right]
    exact hrest

/-- **Several replacements** do. -/
theorem Node.Revised.aligned_landThrough {shifts : List Shift} (h : Revised n shifts n')
    (hpos : Aligned n.tokens pos) (bias : Bias) :
    Aligned n'.tokens (Route.landThrough shifts pos bias).pos := by
  induction h with
  | refl => exact hpos
  | snoc h hnew _ ih =>
    rw [Route.landThrough_concat]
    exact hnew.aligned_carry ih bias

/-- **Valid positions lead to valid positions**, whatever steps a revision tries and to whichever
    side the position sticks. -/
theorem Node.validAt_carry {doc : Node} (h : doc.ValidAt pos) (steps : List Step) (bias : Bias) :
    (doc.revise steps).doc.ValidAt (Carrier.carry (doc.revise steps) pos bias) :=
  validAt_iff.mpr
    ((Revision.revised_run doc steps).aligned_landThrough (validAt_iff.mp h) bias)

/-- Three letters of a quoted paragraph give way to one, of two bytes as was the second of them, and
    a paragraph is put in front of all.  The first step is refused, as it starts inside a letter. -/
def lettersReplaced : List Step :=
  [.delete 8 9, .replace 6 10 (.text "ü"), .insert 0 [paragraph "e"]]

/-- The position after the second letter leads to either side of the new one.  The positions inside
    a letter are not valid. -/
theorem validAt_carry_letters :
    (quoted "céd").ValidAt 9 ∧ ¬(quoted "céd").ValidAt 8 ∧
      Carrier.carry ((quoted "céd").revise lettersReplaced) 9 .left = 9 ∧
      ((quoted "céd").revise lettersReplaced).doc.ValidAt 9 ∧
      Carrier.carry ((quoted "céd").revise lettersReplaced) 9 .right = 11 ∧
      ((quoted "céd").revise lettersReplaced).doc.ValidAt 11 ∧
      ¬((quoted "céd").revise lettersReplaced).doc.ValidAt 10 := by
  have hvalid : (quoted "céd").ValidAt 9 := by decide
  exact ⟨hvalid, by decide, rfl, validAt_carry hvalid lettersReplaced .left, rfl,
    validAt_carry hvalid lettersReplaced .right, by decide⟩

end CodeOverlay
