import PointsTo.Proofs.YamlScalars

/-!
# Quoted texts of written YAML

What is written between quotes is read back up to the closing quote.  In double quotes every
character is escaped that does not stand for itself.  In single quotes only the quote is written
twice, but a text may go over several lines: blanks at the ends of lines are lost, so there are none
in such a text.

Main results:

- {lit}`Quoted`: a written text is read up to its closing quote.
- Theorem {lit}`escape_cases`: the ways in which a character is escaped.
- Theorem {lit}`quoted_double`, {lit}`quoted_single`: quoted texts are read back.
-/

namespace PointsTo.Yaml

variable {c : Char} {cs tail rest more : List Char} {fuel n indent : Nat} {double : Bool}

/-- The character that quotes are written with. -/
def quoteOf (double : Bool) : Char := if double then '"' else '\''

/-- Wherever it stands, a written text is read up to its closing quote. -/
def Quoted (double : Bool) (fuel : Nat) (written cs rest : List Char) : Prop :=
  ∀ col st, ∃ broken col', quotedFrom double fuel ⟨written, col, st⟩ =
    some (cs, broken, ⟨rest, col', false⟩)

namespace Quoted

/-- A text ends at its closing quote, unless that is doubled. -/
theorem nil (hrest : rest.head? ≠ some '\'') :
    Quoted double (fuel + 1) (quoteOf double :: rest) [] rest := by
  intro col st
  refine ⟨false, col + 1, ?_⟩
  cases double with
  | true => simp [quotedFrom, quoteOf, Cursor.advance]
  | false =>
      simp only [quotedFrom, quoteOf, Bool.false_eq_true, if_false]
      split
      · exact absurd rfl hrest
      · simp [Cursor.advance]

/-- A character that stands for itself is read. -/
theorem char (h : Quoted double fuel more cs rest) (hblank : isBlank c = false)
    (hbreak : isBreak c = false) (hquote : c ≠ quoteOf double)
    (hescape : double = true → c ≠ '\\') : Quoted double (fuel + 1) (c :: more) (c :: cs) rest := by
  intro col st
  obtain ⟨broken, col', h⟩ := h (col + 1) false
  refine ⟨broken, col', ?_⟩
  by_cases hs : c = '\''
  · subst hs
    cases double with
    | true => simp [quotedFrom, Cursor.advance, h]
    | false => exact absurd rfl hquote
  by_cases hd : c = '"'
  · subst hd
    cases double with
    | true => exact absurd rfl hquote
    | false => simp [quotedFrom, Cursor.advance, h]
  have hb : (double && c == '\\') = false := by
    cases double with
    | true => simpa using hescape rfl
    | false => rfl
  simp [quotedFrom, hblank, hbreak, hb, Cursor.advance, h]

/-- A doubled quote is read as one. -/
theorem doubled (h : Quoted false fuel more cs rest) :
    Quoted false (fuel + 1) ('\'' :: '\'' :: more) ('\'' :: cs) rest := by
  intro col st
  obtain ⟨broken, col', h⟩ := h (col + 2) false
  exact ⟨broken, col', by simp [quotedFrom, Cursor.advance, h]⟩

/-- An escaped character is read. -/
theorem escaped {letter : Char} {body : List Char} (h : Quoted true fuel more cs rest)
    (hbreak : isBreak letter = false)
    (hread : escaped? (letter :: (body ++ more)) = some (c, more)) :
    Quoted true (fuel + 1) ('\\' :: letter :: (body ++ more)) (c :: cs) rest := by
  intro col st
  have hnext : (Cursor.mk ('\\' :: letter :: (body ++ more)) col st).goTo more =
      ⟨more, col + (body.length + 2), false⟩ := Cursor.goTo_append ('\\' :: letter :: body) more
  obtain ⟨broken, col', h⟩ := h (col + (body.length + 2)) false
  refine ⟨broken, col', ?_⟩
  have hslash : isBlank '\\' = false ∧ isBreak '\\' = false := by decide
  simp [quotedFrom, hslash, hbreak, hread, hnext, h]

/-- Blanks and breaks are read as the gap that they make. -/
theorem gap {gap : Gap} (h : Quoted double fuel more cs rest)
    (hc : (isBlank c || isBreak c) = true)
    (hgap : ∀ col st, ∃ col', (Cursor.mk (c :: tail) col st).gap 0 =
      some (gap, ⟨more, col' + 1, gap.isBroken⟩)) :
    Quoted double (fuel + 1) (c :: tail) (gap.text ++ cs) rest := by
  intro col st
  obtain ⟨next, hgap⟩ := hgap col st
  obtain ⟨broken, col', h⟩ := h (next + 1) gap.isBroken
  refine ⟨gap.isBroken || broken, col', ?_⟩
  have hmark : (Cursor.mk more (next + 1) gap.isBroken).isMark = false :=
    Cursor.isMark_of_column_ne (Nat.succ_ne_zero next)
  have hs : c ≠ '\'' := by
    rintro rfl
    exact absurd hc (by decide)
  have hd : c ≠ '"' := by
    rintro rfl
    exact absurd hc (by decide)
  simp [quotedFrom, quotedGap, hc, hgap, hmark, h]

/-- Spaces in front of something else are kept. -/
theorem spaces (h : Quoted double fuel more cs rest)
    (hmore : ∀ c ∈ more.head?, isBlank c = false ∧ isBreak c = false) (n : Nat) :
    Quoted double (fuel + 1) (margin (n + 1) ++ more) (margin (n + 1) ++ cs) rest := by
  have hgap : ∀ col st, ∃ col', (Cursor.mk (margin (n + 1) ++ more) col st).gap 0 =
      some ({ blanks := margin (n + 1) }, ⟨more, col' + 1, false⟩) := by
    refine fun col st => ⟨col + n, ?_⟩
    rw [Cursor.gap, Cursor.gapFrom_blanks rfl, Cursor.gapFrom_of_begins hmore]
    rfl
  exact h.gap (by decide) hgap

/-- So are breaks, with the margin of the line that follows. -/
theorem breaks {bs : List Char} (h : Quoted double fuel more cs rest)
    (hmore : ∀ c ∈ more.head?, isBlank c = false ∧ isBreak c = false)
    (hbs : ∀ b ∈ bs, isBreak b = true ∧ b ≠ '\n') (hne : bs ≠ []) (n : Nat) :
    Quoted double (fuel + 1) (bs ++ (margin (n + 1) ++ more)) (bs ++ cs) rest := by
  have hbroken : ({ breaks := bs } : Gap).isBroken = true := by simpa [Gap.isBroken] using hne
  have hgap : ∀ col st, ∃ col', (Cursor.mk (bs ++ (margin (n + 1) ++ more)) col st).gap 0 =
      some ({ breaks := bs }, ⟨more, col' + 1, ({ breaks := bs } : Gap).isBroken⟩) := by
    refine fun col st => ⟨n, ?_⟩
    rw [Cursor.gap, Cursor.gapFrom_breaks (fun b hb => (hbs b hb).1) hne]
    simp only [List.nil_append]
    rw [Cursor.gapFrom_indentation hbroken, Cursor.gapFrom_of_begins hmore, Nat.zero_add]
  obtain ⟨b, bs, rfl⟩ := List.exists_cons_of_ne_nil hne
  have htext : ({ breaks := b :: bs } : Gap).text = b :: bs := by
    have hb := (hbs b List.mem_cons_self).2
    unfold Gap.text
    split <;> simp_all
  have hquoted := h.gap (by simp [(hbs b List.mem_cons_self).1]) hgap
  rwa [htext] at hquoted

end Quoted

/-! ### Double quotes -/

/-- The number of a character denotes it. -/
theorem charOf?_toNat (c : Char) : charOf? c.toNat = some c := by
  have hvalid : c.toNat.isValidChar := c.valid
  have hchar := Char.ofNat_toNat c
  rw [Char.ofNat, dif_pos hvalid] at hchar
  rw [charOf?, dif_pos hvalid, hchar]

/-- A number in hexadecimal digits denotes its character. -/
theorem numbered?_hexDigits {width : Nat} (hwidth : 0 < width) (hc : c.toNat < 16 ^ width)
    (more : List Char) :
    numbered? width (hexDigits width c.toNat ++ more) = some (c, more) := by
  have hlength := length_hexDigits hc hwidth
  have htake : (hexDigits width c.toNat ++ more).take width = hexDigits width c.toNat :=
    List.take_left' hlength
  have hdrop : (hexDigits width c.toNat ++ more).drop width = more := List.drop_left' hlength
  have hlt : ¬ (hexDigits width c.toNat ++ more).length < width := by simp [hlength]
  rw [numbered?, if_neg hlt, htake, hdrop, digitsIn?_hexDigits]
  simp [charOf?_toNat]

/-- Letters that stand for a character are read as that character. -/
theorem escaped?_of_mem_escapes {e : Char × Char} (he : e ∈ escapes) (more : List Char) :
    isBreak e.2 = false ∧ escaped? (e.2 :: more) = some (e.1, more) := by
  revert e
  simp only [escapes, List.forall_mem_cons, List.not_mem_nil, false_imp_iff, implies_true, and_true]
  and_intros <;> rfl

/-- A character stands for itself in double quotes, or there is an escape that is read as it. -/
theorem escape_cases (c : Char) :
    (escape c = [c] ∧ isPrintable c = true ∧ isBreak c = false ∧ c ≠ '"' ∧ c ≠ '\\') ∨
      ∃ letter body, escape c = '\\' :: letter :: body ∧ isBreak letter = false ∧
        ∀ more, escaped? (letter :: (body ++ more)) = some (c, more) := by
  unfold escape
  split
  · rename_i hplain
    left
    simpa [and_assoc] using hplain
  · right
    split
    · rename_i letter hletter
      obtain ⟨front, back, hescapes, -⟩ := List.lookup_eq_some_iff.1 hletter
      have hmem : (c, letter) ∈ escapes := by simp [hescapes]
      exact ⟨letter, [], rfl, (escaped?_of_mem_escapes hmem []).1,
        fun more => (escaped?_of_mem_escapes hmem more).2⟩
    · have hvalid : c.toNat.isValidChar := c.valid
      simp only [Nat.isValidChar] at hvalid
      split
      · exact ⟨'x', _, rfl, by decide, numbered?_hexDigits (by decide) (by omega)⟩
      · split
        · exact ⟨'u', _, rfl, by decide, numbered?_hexDigits (by decide) (by omega)⟩
        · exact ⟨'U', _, rfl, by decide, numbered?_hexDigits (by decide) (by omega)⟩

/-- Spaces are not escaped. -/
theorem flatMap_escape_margin (n : Nat) (cs : List Char) :
    (margin n ++ cs).flatMap escape = margin n ++ cs.flatMap escape := by
  have hspace : escape ' ' = [' '] := by decide
  simp [margin, hspace, List.flatMap_replicate]

/-- What holds of a character holds of the first of a text that begins with it. -/
theorem forall_head?_cons {p : Char → Prop} (h : p c) (cs : List Char) :
    ∀ d ∈ (c :: cs).head?, p d := by
  simpa using h

/-- In double quotes nothing begins with a blank or a line end unless it begins with a space. -/
theorem begins_double (h : ∀ c ∈ cs.head?, isSpace c = false) (rest : List Char) :
    ∀ d ∈ (cs.flatMap escape ++ '"' :: rest).head?, isBlank d = false ∧ isBreak d = false := by
  cases cs with
  | nil => exact forall_head?_cons (by decide) _
  | cons c cs =>
      rcases escape_cases c with ⟨hplain, hprintable, hbreak, -⟩ | ⟨letter, body, hescape, -⟩
      · rw [List.flatMap_cons, hplain]
        refine forall_head?_cons ⟨?_, hbreak⟩ _
        rw [isBlank_eq_isSpace hprintable, h c rfl]
      · rw [List.flatMap_cons, hescape]
        exact forall_head?_cons (by decide) _

/-- A text in double quotes is read back. -/
theorem quoted_double (hrest : rest.head? ≠ some '\'') {fuel : Nat}
    (hfuel : (cs.flatMap escape).length < fuel) :
    Quoted true fuel (cs.flatMap escape ++ '"' :: rest) cs rest := by
  induction fuel generalizing cs with
  | zero => exact absurd hfuel (Nat.not_lt_zero _)
  | succ fuel ih =>
      obtain ⟨spaces, more, rfl, hspaces, hmore⟩ := exists_run isSpace cs
      cases spaces with
      | cons b spaces =>
          rw [eq_margin hspaces, List.length_cons, flatMap_escape_margin] at hfuel ⊢
          rw [List.append_assoc]
          have hless : (more.flatMap escape).length < fuel := by
            rw [List.length_append, margin_succ, List.length_cons] at hfuel
            omega
          exact (ih hless).spaces (begins_double hmore rest) _
      | nil =>
          cases more with
          | nil =>
              have hnil : Quoted true (fuel + 1) (quoteOf true :: rest) [] rest := Quoted.nil hrest
              exact hnil
          | cons c more =>
              rw [List.nil_append, List.flatMap_cons] at hfuel ⊢
              rw [List.append_assoc]
              rcases escape_cases c with ⟨hplain, hprintable, hbreak, hquote, hslash⟩ |
                ⟨letter, body, hescape, hbreak, hread⟩
              · rw [hplain] at hfuel ⊢
                refine (ih (by simpa using hfuel)).char ?_ hbreak hquote fun _ => hslash
                rw [isBlank_eq_isSpace hprintable, hmore c rfl]
              · rw [hescape] at hfuel ⊢
                have hless : (more.flatMap escape).length < fuel := by
                  rw [List.length_append, List.length_cons] at hfuel
                  omega
                exact (ih hless).escaped hbreak (hread _)

/-! ### Single quotes -/

/-- Only quotes are written twice, so breaks stay. -/
theorem doubleQuotes_breaks {bs : List Char} (hbs : ∀ b ∈ bs, isBreak b = true) (cs : List Char) :
    doubleQuotes (bs ++ cs) = bs ++ doubleQuotes cs := by
  induction bs with
  | nil => rfl
  | cons b bs ih =>
      obtain ⟨hb, hbs⟩ := List.forall_mem_cons.1 hbs
      have hquote : b ≠ '\'' := by
        rintro rfl
        exact absurd hb (by decide)
      rw [List.cons_append, doubleQuotes, if_neg hquote, ih hbs]
      rfl

/-- Breaks are written as they stand, and the next line is indented. -/
theorem indentLines_breaks {bs : List Char} (hbs : ∀ b ∈ bs, isBreak b = true) (hne : bs ≠ [])
    (broken : Bool) (cs : List Char) :
    indentLines indent broken (bs ++ cs) = bs ++ indentLines indent true cs := by
  induction bs generalizing broken with
  | nil => exact absurd rfl hne
  | cons b bs ih =>
      obtain ⟨hb, hbs⟩ := List.forall_mem_cons.1 hbs
      rw [List.cons_append, indentLines, hb]
      cases bs with
      | nil => simp
      | cons b' bs => simpa using ih hbs (List.cons_ne_nil _ _) true

/-- After a break, a line is indented if it begins with a character. -/
theorem indentLines_true (hne : cs ≠ []) (h : ∀ c ∈ cs.head?, isBreak c = false) :
    indentLines indent true cs = margin indent ++ indentLines indent false cs := by
  cases cs with
  | nil => exact absurd rfl hne
  | cons c cs => simp [indentLines, h c rfl, margin]

/-- A character is written as it stands, or twice if it is a quote. -/
theorem writeSingle_cons (hc : isBreak c = false) (cs : List Char) :
    writeSingle indent (c :: cs) =
      (if c = '\'' then [c, c] else [c]) ++ writeSingle indent cs := by
  have hlast : (c :: cs).getLast?.any isBreak = cs.getLast?.any isBreak := by
    cases cs <;> simp [hc]
  rw [writeSingle, writeSingle, hlast, doubleQuotes]
  split <;> simp only [indentLines, hc, Bool.false_and, Bool.false_eq_true, if_false,
    List.nil_append, List.cons_append]

/-- Behind line ends the text is indented. -/
theorem writeSingle_breaks {bs : List Char} (hbs : ∀ b ∈ bs, isBreak b = true) (hne : bs ≠ [])
    (h : ∀ c ∈ cs.head?, isBreak c = false) :
    writeSingle indent (bs ++ cs) = bs ++ (margin indent ++ writeSingle indent cs) := by
  rw [writeSingle, doubleQuotes_breaks hbs, indentLines_breaks hbs hne]
  cases cs with
  | nil =>
      have hlast : bs.getLast?.any isBreak = true := by
        rw [List.getLast?_eq_some_getLast hne]
        exact hbs _ (List.getLast_mem hne)
      simp [doubleQuotes, indentLines, hlast, writeSingle, margin]
  | cons c cs =>
      have hne' : doubleQuotes (c :: cs) ≠ [] := by
        rw [doubleQuotes]
        split <;> exact List.cons_ne_nil _ _
      have hhead : ∀ d ∈ (doubleQuotes (c :: cs)).head?, isBreak d = false := by
        rw [doubleQuotes]
        split <;> exact forall_head?_cons (h c rfl) _
      rw [indentLines_true hne' hhead, List.getLast?_append_of_ne_nil _ (List.cons_ne_nil c cs),
        writeSingle, List.append_assoc, List.append_assoc]

/-- So are spaces. -/
theorem writeSingle_margin (k : Nat) (cs : List Char) :
    writeSingle indent (margin k ++ cs) = margin k ++ writeSingle indent cs := by
  induction k with
  | zero => rfl
  | succ k ih =>
      rw [margin_succ, List.cons_append, writeSingle_cons (by decide), ih]
      rfl

/-- A pair is in the whole text if it is in its end. -/
theorem hasPair_of_append {p q : Char → Bool} {xs ys : List Char}
    (h : hasPair p q (xs ++ ys) = false) : hasPair p q ys = false := by
  induction xs with
  | nil => exact h
  | cons x xs ih =>
      refine ih ?_
      cases hxs : xs ++ ys with
      | nil => rfl
      | cons y rest =>
          rw [List.cons_append, hxs, hasPair, Bool.or_eq_false_iff] at h
          exact h.2

/-- Nothing of the second kind stands behind a run of the first kind. -/
theorem hasPair_run {p q : Char → Bool} {xs ys : List Char} (h : hasPair p q (xs ++ ys) = false)
    (hne : xs ≠ []) (hxs : ∀ x ∈ xs, p x = true) : ∀ c ∈ ys.head?, q c = false := by
  intro c hc
  obtain ⟨ys, rfl⟩ := List.head?_eq_some_iff.1 hc
  obtain ⟨front, x, rfl⟩ := List.eq_nil_or_concat' xs |>.resolve_left hne
  rw [List.append_assoc] at h
  have hpair := hasPair_of_append h
  rw [List.singleton_append, hasPair, hxs x (by simp), Bool.true_and, Bool.or_eq_false_iff] at hpair
  exact hpair.1

/-- The rest of a text that is written in single quotes. -/
structure SingleRest (cs : List Char) : Prop where
  printable : ∀ c ∈ cs, isPrintable c = true
  lineFeed : '\n' ∉ cs
  before : hasPair isSpace isBreak cs = false
  behind : hasPair isBreak isSpace cs = false

namespace SingleRest

/-- The end of such a text is one. -/
theorem of_append {xs ys : List Char} (h : SingleRest (xs ++ ys)) : SingleRest ys where
  printable c hc := h.printable c (by simp [hc])
  lineFeed hc := h.lineFeed (by simp [hc])
  before := hasPair_of_append h.before
  behind := hasPair_of_append h.behind

/-- In single quotes nothing begins with a blank or a line end unless the text itself does. -/
theorem begins (h : SingleRest cs) (hspace : ∀ c ∈ cs.head?, isSpace c = false)
    (hbreak : ∀ c ∈ cs.head?, isBreak c = false) (rest : List Char) :
    ∀ d ∈ (writeSingle indent cs ++ '\'' :: rest).head?, isBlank d = false ∧ isBreak d = false := by
  cases cs with
  | nil => exact forall_head?_cons (by decide) _
  | cons c cs =>
      have hc : isBlank c = false ∧ isBreak c = false := by
        refine ⟨?_, hbreak c rfl⟩
        rw [isBlank_eq_isSpace (h.printable c List.mem_cons_self), hspace c rfl]
      rw [writeSingle_cons hc.2]
      split <;> exact forall_head?_cons hc _

end SingleRest

/-- A text in single quotes is read back. -/
theorem quoted_single (hrest : rest.head? ≠ some '\'') (hcs : SingleRest cs) {fuel : Nat}
    (hfuel : (writeSingle (n + 1) cs).length < fuel) :
    Quoted false fuel (writeSingle (n + 1) cs ++ '\'' :: rest) cs rest := by
  induction fuel generalizing cs with
  | zero => exact absurd hfuel (Nat.not_lt_zero _)
  | succ fuel ih =>
      obtain ⟨spaces, more, rfl, hspaces, hmore⟩ := exists_run isSpace cs
      cases spaces with
      | cons b spaces =>
          -- spaces stand before something else than a line end
          have hbreak := hasPair_run hcs.before (List.cons_ne_nil b spaces) hspaces
          have hrest' := hcs.of_append
          rw [eq_margin hspaces, List.length_cons, writeSingle_margin] at hfuel ⊢
          rw [List.append_assoc]
          have hless : (writeSingle (n + 1) more).length < fuel := by
            rw [List.length_append, margin_succ, List.length_cons] at hfuel
            omega
          exact (ih hrest' hless).spaces (hrest'.begins hmore hbreak rest) _
      | nil =>
          rw [List.nil_append] at *
          obtain ⟨bs, behind, rfl, hbs, hbehind⟩ := exists_run isBreak more
          cases bs with
          | cons b bs =>
              -- no line feed is among the line ends, so that all of them count
              have hspace := hasPair_run hcs.behind (List.cons_ne_nil b bs) hbs
              have hbs' : ∀ d ∈ b :: bs, isBreak d = true ∧ d ≠ '\n' := fun d hd =>
                ⟨hbs d hd, fun hfeed => hcs.lineFeed (List.mem_append_left _ (hfeed ▸ hd))⟩
              rw [writeSingle_breaks hbs (List.cons_ne_nil b bs) hbehind] at hfuel ⊢
              rw [List.append_assoc, List.append_assoc]
              have hless : (writeSingle (n + 1) behind).length < fuel := by
                rw [List.length_append, List.length_append, List.length_cons] at hfuel
                omega
              exact (ih hcs.of_append hless).breaks (hcs.of_append.begins hspace hbehind rest) hbs'
                (List.cons_ne_nil b bs) n
          | nil =>
              rw [List.nil_append] at *
              cases behind with
              | nil =>
                  have hnil : Quoted false (fuel + 1) (quoteOf false :: rest) [] rest :=
                    Quoted.nil hrest
                  exact hnil
              | cons c behind =>
                  have hc := hcs.printable c List.mem_cons_self
                  have hline : SingleRest ([c] ++ behind) := hcs
                  have hcs' := hline.of_append
                  rw [writeSingle_cons (hbehind c rfl), List.length_append] at hfuel
                  rw [writeSingle_cons (hbehind c rfl), List.append_assoc]
                  split at hfuel
                  · rename_i hquote
                    subst hquote
                    have hless : (writeSingle (n + 1) behind).length < fuel := by
                      rw [List.length_cons] at hfuel
                      omega
                    exact (ih hcs' hless).doubled
                  · rename_i hquote
                    have hless : (writeSingle (n + 1) behind).length < fuel := by
                      rw [List.length_cons] at hfuel
                      omega
                    rw [if_neg hquote]
                    refine (ih hcs' hless).char ?_ (hbehind c rfl) hquote nofun
                    rw [isBlank_eq_isSpace hc, hmore c rfl]

end PointsTo.Yaml
