import Mathlib.Data.List.Induction
import CodeOverlay.Highlight.StyleTable

namespace CodeOverlay

/-!
# The style of a dotted name

A name without a style of its own has that of what stands before its last dot, and so on.  Dots may
stand anywhere, also at the ends of a name or next to one another, and names in the table may hold
some themselves.

* `DottedPrefix` — a name, or what stands before one of its dots;
* `beforeLastDot?`, `StyleTable.shortening?` — the search that cuts a name at its last dot;
* `mem_dottedPrefixes_iff`, `pairwise_dottedPrefixes` — which beginnings are tried, and when;
* `StyleTable.styleOf?_eq_shortening?` — the search finds the style;
* `StyleTable.Made`, `StyleTable.LastGiven` — tables as they come about, and what was given last;
* `StyleTable.Decides` — no longer beginning of the name is in the table;
* `StyleTable.styleOf?_longest` — **the longest beginning in the table decides**.
-/

/-! ### Beginnings of a name -/

/-- The name itself, or what stands before one of its dots. -/
def DottedPrefix (front name : String) : Prop :=
  front = name ∨ ∃ rest, name = front ++ "." ++ rest

variable {cs front shorter : List Char} {c d name style : String}

theorem mem_properPrefixes_iff : front ∈ properPrefixes cs ↔ ∃ rest, cs = front ++ '.' :: rest := by
  induction cs generalizing front with
  | nil => simp [properPrefixes]
  | cons a cs ih =>
    rw [properPrefixes, List.mem_append, List.mem_map]
    constructor
    · rintro (⟨front, hfront, rfl⟩ | hempty)
      · obtain ⟨rest, rfl⟩ := ih.mp hfront
        exact ⟨rest, rfl⟩
      · split at hempty
        · rename_i hdot
          obtain rfl := List.mem_singleton.mp hempty
          exact ⟨cs, by rw [hdot]; rfl⟩
        · cases hempty
    · rintro ⟨rest, hsplit⟩
      cases front with
      | nil =>
        obtain ⟨hdot, -⟩ := List.cons.inj hsplit
        exact .inr (by rw [if_pos hdot]; exact List.mem_singleton_self _)
      | cons b front =>
        obtain ⟨rfl, hrest⟩ := List.cons.inj hsplit
        exact .inl ⟨front, ih.mpr ⟨rest, hrest⟩, rfl⟩

/-- Longer beginnings are listed before shorter ones. -/
theorem pairwise_properPrefixes (cs : List Char) :
    (properPrefixes cs).Pairwise fun l r => r.length < l.length := by
  induction cs with
  | nil => exact .nil
  | cons a cs ih =>
    rw [properPrefixes, List.pairwise_append]
    refine ⟨?_, by split <;> simp, ?_⟩
    · rw [List.pairwise_map]
      exact ih.imp Nat.succ_lt_succ
    · intro l hl r hr
      obtain ⟨front, -, rfl⟩ := List.mem_map.mp hl
      -- only the empty beginning is listed after those that start with `a`
      split at hr
      · obtain rfl := List.mem_singleton.mp hr
        exact Nat.succ_pos _
      · cases hr

/-- **Which beginnings are tried** for a name. -/
theorem mem_dottedPrefixes_iff : c ∈ dottedPrefixes name ↔ DottedPrefix c name := by
  rw [dottedPrefixes, List.mem_cons, List.mem_map, DottedPrefix]
  refine or_congr_right ⟨?_, ?_⟩
  · rintro ⟨front, hfront, rfl⟩
    obtain ⟨rest, hrest⟩ := mem_properPrefixes_iff.mp hfront
    refine ⟨String.ofList rest, String.toList_inj.mp ?_⟩
    simp [hrest]
  · rintro ⟨rest, rfl⟩
    exact ⟨c.toList, mem_properPrefixes_iff.mpr ⟨rest.toList, by simp⟩, String.ofList_toList⟩

instance : Decidable (DottedPrefix c name) :=
  decidable_of_iff _ mem_dottedPrefixes_iff

/-- A longer beginning is tried before a shorter one. -/
theorem pairwise_dottedPrefixes (name : String) :
    (dottedPrefixes name).Pairwise fun l r => r.length < l.length := by
  rw [dottedPrefixes, List.pairwise_cons]
  constructor
  · intro r hr
    obtain ⟨front, hfront, rfl⟩ := List.mem_map.mp hr
    obtain ⟨rest, hrest⟩ := mem_properPrefixes_iff.mp hfront
    rw [String.length_ofList, ← String.length_toList, hrest, List.length_append, List.length_cons]
    omega
  · rw [List.pairwise_map]
    simpa only [String.length_ofList] using pairwise_properPrefixes name.toList

/-! ### Cutting at the last dot -/

/-- What stands before the last dot, if there is any dot. -/
def beforeLastDot? : List Char → Option (List Char)
  | [] => none
  | c :: cs =>
    match beforeLastDot? cs with
    | some front => some (c :: front)
    | none => if c = '.' then some [] else none

theorem length_beforeLastDot? (h : beforeLastDot? cs = some shorter) :
    shorter.length < cs.length := by
  induction cs generalizing shorter with
  | nil => cases h
  | cons a cs ih =>
    rw [beforeLastDot?] at h
    split at h
    · rename_i front hfront
      cases h
      exact Nat.succ_lt_succ (ih hfront)
    · split at h
      · cases h
        exact Nat.succ_pos _
      · cases h

/-- Beginnings that end before a dot end before the last one, or are those of what stands there. -/
theorem properPrefixes_eq (cs : List Char) :
    properPrefixes cs =
      match beforeLastDot? cs with
      | some shorter => shorter :: properPrefixes shorter
      | none => [] := by
  induction cs with
  | nil => rfl
  | cons a cs ih =>
    rw [properPrefixes, beforeLastDot?, ih]
    cases beforeLastDot? cs with
    | none => by_cases hdot : a = '.' <;> simp [hdot, properPrefixes]
    | some front => simp [properPrefixes]

namespace StyleTable

variable {table : StyleTable} {given : List (String × String)}

/-- Cuts a name at its last dot, again and again, until what is left is in the table. -/
def shortening? (table : StyleTable) (name : List Char) : Option String :=
  match _h : beforeLastDot? name with
  | none => none
  | some shorter =>
    match table.styles[String.ofList shorter]? with
    | some style => some style
    | none => table.shortening? shorter
termination_by name.length
decreasing_by exact length_beforeLastDot? _h

theorem findSome?_properPrefixes (table : StyleTable) (cs : List Char) :
    ((properPrefixes cs).map String.ofList).findSome? (table.styles[·]?) =
      table.shortening? cs := by
  fun_induction shortening? table cs with
  | case1 cs h =>
    rw [properPrefixes_eq, h]
    rfl
  | case2 cs shorter h style hstyle =>
    rw [properPrefixes_eq, h, List.map_cons, List.findSome?_cons, hstyle]
  | case3 cs shorter h hnone ih =>
    rw [properPrefixes_eq, h, List.map_cons, List.findSome?_cons, hnone, ← ih]

/-- **The search finds the style**: the name is looked up, and then what is left of it as it is cut
    at one dot after the other. -/
theorem styleOf?_eq_shortening? (table : StyleTable) (name : String) :
    table.styleOf? name = table.styles[name]?.or (table.shortening? name.toList) := by
  rw [styleOf?, dottedPrefixes, List.findSome?_cons, findSome?_properPrefixes]
  cases table.styles[name]? <;> rfl

/-! ### The longest beginning -/

/-- No longer beginning of the name than this one is in the table. -/
def Decides (table : StyleTable) (c name : String) : Prop :=
  DottedPrefix c name ∧ ∀ d, DottedPrefix d name → c.length < d.length → d ∉ table.styles

instance : Decidable (table.Decides c name) :=
  decidable_of_iff (DottedPrefix c name ∧
    ∀ d ∈ dottedPrefixes name, c.length < d.length → d ∉ table.styles) <| by
      simp only [mem_dottedPrefixes_iff, Decides]

/-- The first of some names in a table is the longest, if longer ones stand before shorter ones. -/
theorem findSome?_eq_some_iff_longest {f : String → Option String} {names : List String}
    (hnames : names.Pairwise fun l r => r.length < l.length) :
    names.findSome? f = some style ↔
      ∃ c ∈ names, f c = some style ∧ ∀ d ∈ names, c.length < d.length → f d = none := by
  rw [List.findSome?_eq_some_iff]
  constructor
  · rintro ⟨before, c, after, rfl, hc, hbefore⟩
    refine ⟨c, List.mem_append_right _ List.mem_cons_self, hc, fun d hd hlonger => ?_⟩
    obtain ⟨-, hafter, -⟩ := List.pairwise_append.mp hnames
    rcases List.mem_append.mp hd with hd | hd
    · exact hbefore d hd
    · rcases List.mem_cons.mp hd with rfl | hd
      · exact absurd hlonger (Nat.lt_irrefl _)
      · exact absurd hlonger (Nat.lt_asymm ((List.pairwise_cons.mp hafter).1 d hd))
  · rintro ⟨c, hmem, hc, hlonger⟩
    obtain ⟨before, after, rfl⟩ := List.append_of_mem hmem
    obtain ⟨-, -, hbefore⟩ := List.pairwise_append.mp hnames
    exact ⟨before, c, after, rfl, hc, fun d hd =>
      hlonger d (List.mem_append_left _ hd) (hbefore d hd c List.mem_cons_self)⟩

theorem getElem?_eq_none_iff : table.styles[d]? = none ↔ d ∉ table.styles := by
  rw [Std.ExtTreeMap.mem_iff_isSome_getElem?, Option.not_isSome_iff_eq_none]

/-- The style of a name is that of its longest beginning in the table. -/
theorem styleOf?_eq_some_iff :
    table.styleOf? name = some style ↔
      ∃ c, table.Decides c name ∧ table.styles[c]? = some style := by
  rw [styleOf?, findSome?_eq_some_iff_longest (pairwise_dottedPrefixes name)]
  simp only [mem_dottedPrefixes_iff, Decides, getElem?_eq_none_iff]
  constructor
  · rintro ⟨c, hc, hstyle, hlonger⟩
    exact ⟨c, ⟨hc, hlonger⟩, hstyle⟩
  · rintro ⟨c, ⟨hc, hlonger⟩, hstyle⟩
    exact ⟨c, hc, hstyle, hlonger⟩

/-- A name has no style if none of its beginnings is in the table. -/
theorem styleOf?_eq_none_iff :
    table.styleOf? name = none ↔ ∀ c, DottedPrefix c name → c ∉ table.styles := by
  rw [styleOf?, List.findSome?_eq_none_iff]
  simp only [mem_dottedPrefixes_iff, getElem?_eq_none_iff]

/-! ### Giving a style -/

/-- What is in a table after a name is given a style. -/
theorem getElem?_set (table : StyleTable) (c style name : String) :
    (table.set c style).styles[name]? = if c = name then some style else table.styles[name]? := by
  simp only [set, Std.ExtTreeMap.getElem?_insert, Std.LawfulEqCmp.compare_eq_iff_eq]

theorem mem_set_iff : d ∈ (table.set c style).styles ↔ c = d ∨ d ∈ table.styles := by
  rw [set, Std.ExtTreeMap.mem_insert, Std.LawfulEqCmp.compare_eq_iff_eq]

/-- A style that is given to the deciding beginning is that of the name. -/
theorem Decides.styleOf?_set (h : table.Decides c name) (style : String) :
    (table.set c style).styleOf? name = some style := by
  refine styleOf?_eq_some_iff.mpr ⟨c, ⟨h.1, fun d hd hlonger => ?_⟩, ?_⟩
  · rw [mem_set_iff, not_or]
    exact ⟨fun heq => Nat.lt_irrefl _ (heq ▸ hlonger), h.2 d hd hlonger⟩
  · rw [getElem?_set, if_pos rfl]

/-- A style for a string that does not decide a name leaves it to the same string to decide. -/
theorem decides_set_iff (h : ¬table.Decides c name) :
    (table.set c style).Decides d name ↔ table.Decides d name := by
  constructor
  · rintro ⟨hd, hlonger⟩
    exact ⟨hd, fun e he hlt hmem => hlonger e he hlt (mem_set_iff.mpr (.inr hmem))⟩
  · rintro ⟨hd, hlonger⟩
    refine ⟨hd, fun e he hlt hmem => ?_⟩
    rcases mem_set_iff.mp hmem with rfl | hmem
    · -- what is longer than `c` is longer than `d` too, so `c` would decide
      exact h ⟨he, fun f hf hlt' => hlonger f hf (Nat.lt_trans hlt hlt')⟩
    · exact hlonger e he hlt hmem

/-- **A style does not leak** to names that the string does not decide. -/
theorem styleOf?_set_of_not_decides (h : ¬table.Decides c name) (style : String) :
    (table.set c style).styleOf? name = table.styleOf? name := by
  refine Option.ext fun found => ?_
  rw [styleOf?_eq_some_iff, styleOf?_eq_some_iff]
  refine exists_congr fun d => ?_
  rw [decides_set_iff h]
  refine and_congr_right fun hd => ?_
  have hne : c ≠ d := by
    rintro rfl
    exact h hd
  rw [getElem?_set, if_neg hne]

/-! ### Tables as they come about -/

/-- The style that a name was given last. -/
def LastGiven (given : List (String × String)) (name style : String) : Prop :=
  ∃ before after, given = before ++ (name, style) :: after ∧ name ∉ after.map Prod.fst

/-- How a table comes about, with all styles that were given to names, the first one first. -/
inductive Made : StyleTable → List (String × String) → Prop
  /-- The empty table. -/
  | empty : Made .empty []
  /-- The usual table. -/
  | standard : Made .standard standardStyles
  /-- A table in which one more name is given a style. -/
  | set {table : StyleTable} {given : List (String × String)} (name style : String)
      (h : Made table given) : Made (table.set name style) (given ++ [(name, style)])

theorem lastGiven_concat_iff {e : String × String} :
    LastGiven (given ++ [e]) name style ↔
      if e.1 = name then e.2 = style else LastGiven given name style := by
  constructor
  · rintro ⟨before, after, hsplit, hlast⟩
    rcases List.eq_nil_or_concat after with rfl | ⟨after, last, rfl⟩
    · obtain ⟨-, rfl⟩ := List.append_inj' hsplit rfl |>.imp_right List.singleton_inj.mp
      rw [if_pos rfl]
    · rw [List.concat_eq_append] at hsplit hlast
      rw [← List.cons_append, ← List.append_assoc] at hsplit
      obtain ⟨rfl, rfl⟩ := List.append_inj' hsplit rfl |>.imp_right List.singleton_inj.mp
      rw [List.map_append, List.mem_append, not_or] at hlast
      rw [if_neg fun heq => hlast.2 (by simp [heq])]
      exact ⟨before, after, rfl, hlast.1⟩
  · split
    · rintro rfl
      rename_i heq
      exact ⟨given, [], by rw [← heq], List.not_mem_nil⟩
    · rename_i hne
      rintro ⟨before, after, rfl, hlast⟩
      refine ⟨before, after ++ [e], by simp, ?_⟩
      rw [List.map_append, List.mem_append, not_or]
      exact ⟨hlast, by simpa using Ne.symm hne⟩

/-- The table holds for each name the style that it was given last. -/
def Records (table : StyleTable) (given : List (String × String)) : Prop :=
  ∀ name style, table.styles[name]? = some style ↔ LastGiven given name style

theorem records_empty : Records .empty [] := by
  intro name style
  simp [StyleTable.empty, LastGiven]

theorem Records.set (h : table.Records given) (c style : String) :
    (table.set c style).Records (given ++ [(c, style)]) := by
  intro name found
  rw [getElem?_set, lastGiven_concat_iff]
  by_cases hc : c = name
  · rw [if_pos hc, if_pos hc, Option.some.injEq]
  · rw [if_neg hc, if_neg hc]
    exact h name found

theorem Records.foldl (h : table.Records given) (more : List (String × String)) :
    (more.foldl (fun table (name, style) => table.set name style) table).Records
      (given ++ more) := by
  induction more generalizing table given with
  | nil => simpa using h
  | cons e more ih =>
    rw [List.foldl_cons, List.append_cons]
    exact ih (h.set e.1 e.2)

/-- However a table comes about, it holds for each name the style that it was given last. -/
theorem Made.records (h : table.Made given) : table.Records given := by
  induction h with
  | empty => exact records_empty
  | standard => exact records_empty.foldl standardStyles
  | set name style _ ih => exact ih.set name style

/-- A name was given a style last if it was given any. -/
theorem exists_lastGiven_iff : (∃ style, LastGiven given name style) ↔ name ∈ given.map Prod.fst := by
  induction given using List.reverseRecOn with
  | nil => simp [LastGiven]
  | append_singleton given e ih =>
    simp only [lastGiven_concat_iff, List.map_append, List.mem_append, ← ih]
    by_cases he : e.1 = name
    · simp [he]
    · simp [he, Ne.symm he]

/-- The names in a table are those that were given a style. -/
theorem Made.mem_iff (h : table.Made given) : c ∈ table.styles ↔ c ∈ given.map Prod.fst := by
  rw [Std.ExtTreeMap.mem_iff_isSome_getElem?, Option.isSome_iff_exists, ← exists_lastGiven_iff]
  exact exists_congr (h.records c)

/-- **The longest beginning in the table decides.**  The style of a name is the one that was last
    given to the longest string in the table among the name and what stands before its dots, and it
    has none if none of these is in the table; the search that cuts at the last dot finds it.  Giving
    a style to a string makes it the style of the names which that string decides, and leaves the
    other names as they were. -/
theorem styleOf?_longest (h : table.Made given) (name : String) :
    (∀ c, c ∈ table.styles ↔ c ∈ given.map Prod.fst) ∧
    (∀ style, table.styleOf? name = some style ↔
      ∃ c ∈ table.styles, table.Decides c name ∧ LastGiven given c style) ∧
    (table.styleOf? name = none ↔ ∀ c, DottedPrefix c name → c ∉ table.styles) ∧
    table.styleOf? name = table.styles[name]?.or (table.shortening? name.toList) ∧
    ∀ c style,
      (table.Decides c name → (table.set c style).styleOf? name = some style) ∧
      (¬table.Decides c name → (table.set c style).styleOf? name = table.styleOf? name) := by
  refine ⟨fun c => h.mem_iff, fun style => ?_, styleOf?_eq_none_iff,
    styleOf?_eq_shortening? table name, fun c style => ⟨fun hdecides => hdecides.styleOf?_set style,
      fun hnot => styleOf?_set_of_not_decides hnot style⟩⟩
  rw [styleOf?_eq_some_iff]
  constructor
  · rintro ⟨c, hdecides, hc⟩
    exact ⟨c, Std.ExtTreeMap.mem_iff_isSome_getElem?.mpr (by rw [hc]; rfl), hdecides,
      (h.records c style).mp hc⟩
  · rintro ⟨c, -, hdecides, hc⟩
    exact ⟨c, hdecides, (h.records c style).mpr hc⟩

/-- A table with the empty name, and with a name that ends in a dot. -/
def edgeStyles : StyleTable :=
  (StyleTable.empty.set "" "plain").set "a." "dotted"

/-- Between two dots a name is cut twice.  A style for `"a"` does not reach past `"a."`, but it
    reaches `"a.b"`, which has no style before; a name that starts with a dot falls back to the empty
    one. -/
theorem styleOf?_longest_edges :
    edgeStyles.Made [("", "plain"), ("a.", "dotted")] ∧
      (∃ c ∈ edgeStyles.styles, edgeStyles.Decides c "a..b" ∧
        LastGiven [("", "plain"), ("a.", "dotted")] c "dotted") ∧
      (edgeStyles.set "a" "letter").styleOf? "a..b" = edgeStyles.styleOf? "a..b" ∧
      (edgeStyles.set "a" "letter").styleOf? "a.b" = some "letter" ∧
      edgeStyles.styleOf? "a.b" = none ∧ edgeStyles.styleOf? ".a.b" = some "plain" := by
  have hmade : edgeStyles.Made [("", "plain"), ("a.", "dotted")] :=
    (Made.empty.set "" "plain").set "a." "dotted"
  obtain ⟨-, hstyle, -, -, hkept⟩ := styleOf?_longest hmade "a..b"
  obtain ⟨-, -, hnone, -, hgiven⟩ := styleOf?_longest hmade "a.b"
  refine ⟨hmade, (hstyle "dotted").mp (by decide +kernel),
    (hkept "a" "letter").2 (by decide +kernel), (hgiven "a" "letter").1 (by decide +kernel), ?_,
    by decide +kernel⟩
  refine hnone.mpr fun c hc => ?_
  have hall : ∀ c ∈ dottedPrefixes "a.b", c ∉ edgeStyles.styles := by decide +kernel
  exact hall c (mem_dottedPrefixes_iff.mpr hc)

end StyleTable

end CodeOverlay
