import Mathlib.Data.List.TakeWhile
import PointsTo.Proofs.YamlWords
import PointsTo.Yaml.Printer
import PointsTo.Yaml.Scalar

/-!
# Scalars of written YAML

A value ends with its line, and what follows begins in some column with a word.  A bare text is read
word by word up to there: the spaces between its words count, the line end does not.

Main results:

- {lit}`Follows`: what stands behind a value.
- Theorem {lit}`Cursor.skip_lineEnd`, {lit}`Cursor.gap_lineEnd`: a line end leads to what follows.
- Theorem {lit}`bareFrom_bare`: a bare text is read up to the end of its line.
-/

namespace PointsTo.Yaml

variable {c : Char} {cs tail rest : List Char} {floor k n col : Nat} {st : Bool}

/-- A margin begins with a space. -/
theorem margin_succ (n : Nat) : margin (n + 1) = ' ' :: margin n := List.replicate_succ

/-! ## What follows a value -/

/-- Behind a value there is a line that begins in some column with a word, or nothing. -/
structure Follows (tail : List Char) (k : Nat) (rest : List Char) : Prop where
  text : tail = margin k ++ rest
  begins : ∀ c ∈ rest.head?, isBlank c = false ∧ isBreak c = false ∧ c ≠ '#'
  column : rest = [] → k = 0

namespace Cursor

/-- Nothing is skipped in front of a character that begins something. -/
theorem skipFrom_of_begins (h : ∀ c ∈ rest.head?, isBlank c = false ∧ isBreak c = false ∧ c ≠ '#')
    (inBrackets : Bool) : skipFrom inBrackets false st col rest = ⟨rest, col, st⟩ := by
  cases rest with
  | nil => rfl
  | cons c cs =>
      obtain ⟨hblank, hbreak, hcomment⟩ := h c rfl
      have hspaces : c ≠ ' ' ∧ c ≠ '\t' := by simpa [isBlank] using hblank
      simp [skipFrom, hbreak, hcomment, hspaces.1, hspaces.2]

/-- A margin is skipped, and the column goes up with it. -/
theorem skipFrom_margin (inBrackets : Bool) (k col : Nat) (cs : List Char) :
    skipFrom inBrackets false st col (margin k ++ cs) =
      skipFrom inBrackets false st (col + k) cs := by
  induction k generalizing col with
  | zero => rfl
  | succ k ih =>
      have hspace : isBreak ' ' = false := by decide
      rw [margin_succ, List.cons_append, skipFrom]
      simp only [hspace, Bool.false_eq_true, if_false, true_or, if_true]
      rw [ih, Nat.add_right_comm, Nat.add_assoc]

/-- A new line leads to where the next word begins. -/
theorem skip_lineEnd (h : Follows tail k rest) :
    (Cursor.mk ('\n' :: tail) col st).skip false = ⟨rest, k, true⟩ := by
  have hbreak : isBreak '\n' = true := by decide
  rw [skip, skipFrom, if_pos hbreak, h.text]
  simp only [Bool.not_false, Bool.or_true]
  rw [skipFrom_margin, skipFrom_of_begins h.begins, Nat.zero_add]

/-- Behind a value, what follows is where it begins. -/
theorem skip_of_begins (h : Follows tail k rest) :
    (Cursor.mk rest col st).skip false = ⟨rest, col, st⟩ :=
  skipFrom_of_begins h.begins false

/-! ### White space in scalars -/

/-- No gap is left in front of a character that begins something. -/
theorem gapFrom_of_begins {g : Gap} (h : ∀ c ∈ rest.head?, isBlank c = false ∧ isBreak c = false) :
    gapFrom floor col g rest = some (g, ⟨rest, col, g.isBroken⟩) := by
  cases rest with
  | nil => rfl
  | cons c cs =>
      obtain ⟨hblank, hbreak⟩ := h c rfl
      simp [gapFrom, hblank, hbreak]

/-- Blanks before the first line end count. -/
theorem gapFrom_blanks {g : Gap} (hg : g.isBroken = false) (n : Nat) (cs : List Char) :
    gapFrom floor col g (margin n ++ cs) =
      gapFrom floor (col + n) { g with blanks := g.blanks ++ margin n } cs := by
  induction n generalizing col g with
  | zero => simp [margin]
  | succ n ih =>
      have hspace : isBreak ' ' = false ∧ isBlank ' ' = true := by decide
      have hg' : ({ g with blanks := g.blanks ++ [' '] } : Gap).isBroken = false := hg
      rw [margin_succ, List.cons_append, gapFrom]
      simp only [hspace.1, hspace.2, hg, Bool.false_eq_true, if_false, if_true, Bool.not_false]
      rw [ih hg']
      simp [Nat.add_right_comm, Nat.add_assoc]

/-- Blanks behind a line end do not count. -/
theorem gapFrom_indentation {g : Gap} (hg : g.isBroken = true) (n : Nat) (cs : List Char) :
    gapFrom floor col g (margin n ++ cs) = gapFrom floor (col + n) g cs := by
  induction n generalizing col with
  | zero => rfl
  | succ n ih =>
      have hspace : isBreak ' ' = false ∧ isBlank ' ' = true ∧ ' ' ≠ '\t' := by decide
      rw [margin_succ, List.cons_append, gapFrom]
      simp only [hspace.1, hspace.2, hg, Bool.false_eq_true, if_false, if_true, Bool.not_true,
        false_and]
      rw [ih, Nat.add_right_comm, Nat.add_assoc]

/-- Line ends count. -/
theorem gapFrom_breaks {g : Gap} {bs : List Char} (hbs : ∀ b ∈ bs, isBreak b = true) (hne : bs ≠ [])
    (cs : List Char) : gapFrom floor col g (bs ++ cs) =
      gapFrom floor 0 { g with breaks := g.breaks ++ bs } cs := by
  induction bs generalizing col g with
  | nil => exact absurd rfl hne
  | cons b bs ih =>
      obtain ⟨hb, hbs⟩ := List.forall_mem_cons.1 hbs
      rw [List.cons_append, gapFrom, if_pos hb]
      cases bs with
      | nil => rfl
      | cons b' bs => rw [ih hbs (List.cons_ne_nil _ _)]; simp

/-- A line end leads to where the next word begins. -/
theorem gap_lineEnd (h : Follows tail k rest) :
    (Cursor.mk ('\n' :: tail) col st).gap floor =
      some ({ breaks := ['\n'] }, ⟨rest, k, true⟩) := by
  have hbreaks : gapFrom floor col {} (['\n'] ++ tail) =
      gapFrom floor 0 { breaks := ['\n'] } tail :=
    gapFrom_breaks (List.forall_mem_singleton.2 rfl) (List.cons_ne_nil _ _) tail
  rw [gap, ← List.singleton_append, hbreaks, h.text, gapFrom_indentation rfl,
    gapFrom_of_begins fun c hc => ⟨(h.begins c hc).1, (h.begins c hc).2.1⟩, Nat.zero_add]
  rfl

/-- A mark of a document stands in the first column only. -/
theorem isMark_of_column_ne (h : col ≠ 0) : (Cursor.mk cs col st).isMark = false := by
  simp [isMark, h]

end Cursor

/-! ## Runs of characters -/

/-- A text begins with a run of characters of one kind. -/
theorem exists_run (p : Char → Bool) (cs : List Char) : ∃ run more, cs = run ++ more ∧
    (∀ c ∈ run, p c = true) ∧ ∀ c ∈ more.head?, p c = false :=
  ⟨cs.takeWhile p, cs.dropWhile p, List.takeWhile_append_dropWhile.symm,
    fun _ hc => List.mem_takeWhile_imp hc, fun c hc => by
      simpa [Option.mem_def.1 hc] using List.head?_dropWhile_not p cs⟩

/-- A text of spaces is a margin. -/
theorem eq_margin (h : ∀ c ∈ cs, isSpace c = true) : cs = margin cs.length :=
  List.eq_replicate_of_mem fun c hc => by simpa [isSpace] using h c hc

/-! ## Bare words -/

/-- What can stand behind a word without being part of it. -/
def EndsWord (cs : List Char) : Prop :=
  atWordEnd cs = true ∨ ∃ rest, cs = ':' :: rest ∧ atWordEnd rest = true

/-- No word is read where a word ends. -/
theorem bareRun_of_endsWord (h : EndsWord cs) : bareRun false cs = some ([], cs) := by
  cases cs with
  | nil => rfl
  | cons c cs =>
      rcases h with hend | ⟨rest, hcons, hend⟩
      · rw [bareRun, if_pos (by simp_all [atWordEnd])]
      · cases hcons
        rw [bareRun, if_pos (by simp [hend])]

/-- A word without blanks in which no colon stands at the end is read up to its end. -/
theorem bareRun_append {w : List Char} {b : Bool}
    (hw : ∀ c ∈ w, isBlank c = false ∧ isBreak c = false) (hmark : hasMark b w = false)
    (hcs : EndsWord cs) :
    bareRun false (w ++ cs) = some (w, cs) := by
  induction w generalizing b with
  | nil => exact bareRun_of_endsWord hcs
  | cons c w ih =>
      obtain ⟨⟨hblank, hbreak⟩, hw⟩ := List.forall_mem_cons.1 hw
      rw [hasMark, Bool.or_eq_false_iff, Bool.or_eq_false_iff] at hmark
      have hcolon : (c == ':' && atWordEnd (w ++ cs)) = false := by
        cases w with
        | nil =>
            have hc : c ≠ ':' := by simpa [atWordEnd] using hmark.1.1
            simp [hc]
        | cons d w => exact hmark.1.1
      rw [List.cons_append, bareRun]
      simp only [hblank, hbreak, hcolon, ih hw hmark.2, Bool.or_self, Bool.false_and,
        Bool.false_eq_true, if_false, Option.map_some]

/-- A space splits the search for marks. -/
theorem hasMark_space (b : Bool) (w cs : List Char) :
    hasMark b (w ++ ' ' :: cs) = (hasMark b w || hasMark true cs) := by
  induction w generalizing b with
  | nil => simp [hasMark, isBlank]
  | cons c w ih =>
      have hend : atWordEnd (w ++ ' ' :: cs) = atWordEnd w := by
        cases w <;> simp [atWordEnd, isBlank]
      simp only [List.cons_append, hasMark, hend, ih, Bool.or_assoc]

/-- So does a margin. -/
theorem hasMark_margin (b : Bool) (w : List Char) (n : Nat) (cs : List Char) :
    hasMark b (w ++ margin (n + 1) ++ cs) = (hasMark b w || hasMark true cs) := by
  induction n generalizing w b with
  | zero => simpa [margin] using hasMark_space b w cs
  | succ n ih =>
      have hspace := ih true []
      rw [margin_succ, List.append_assoc, List.cons_append, hasMark_space,
        ← List.nil_append (margin _), hspace]
      simp [hasMark]

/-- The rest of a text that is written bare, from the beginning of a word on. -/
structure BareRest (w : List Char) : Prop where
  ne_nil : w ≠ []
  printable : ∀ c ∈ w, isPrintable c = true
  unbroken : ∀ c ∈ w, isBreak c = false
  unmarked : hasMark true w = false
  head : w.head? ≠ some ' '
  last : w.getLast? ≠ some ' '

/-- A text that fits without quotes may be read bare. -/
theorem bareRest_of_fitsBare (hne : cs ≠ []) (h : fitsBare cs = true) : BareRest cs := by
  simp only [fitsBare, isClean, Bool.and_eq_true, Bool.not_eq_true', List.all_eq_true,
    List.any_eq_false] at h
  obtain ⟨⟨⟨⟨⟨⟨hprintable, -⟩, hunbroken⟩, -⟩, hunmarked⟩, hhead⟩, hlast⟩ := h
  refine ⟨hne, hprintable, by simpa using hunbroken, hunmarked, ?_, ?_⟩
  · intro hspace
    simp [hspace, isSpace] at hhead
  · intro hspace
    simp [hspace, isSpace] at hlast

namespace BareRest

/-- The end of such a text may be read bare, too. -/
theorem of_append {run more : List Char} (h : BareRest (run ++ margin (n + 1) ++ more))
    (hne : more ≠ []) (hhead : more.head? ≠ some ' ') : BareRest more where
  ne_nil := hne
  printable c hc := h.printable c (by simp [hc])
  unbroken c hc := h.unbroken c (by simp [hc])
  unmarked := by
    have hmark := h.unmarked
    rw [hasMark_margin, Bool.or_eq_false_iff] at hmark
    exact hmark.2
  head := hhead
  last := by
    have hlast := h.last
    rwa [List.getLast?_append_of_ne_nil _ hne] at hlast

/-- Such a text begins with no comment. -/
theorem head_ne {w : List Char} (h : BareRest w) : w.head? ≠ some '#' := by
  intro hhead
  obtain ⟨w, rfl⟩ := List.head?_eq_some_iff.1 hhead
  simpa [hasMark] using h.unmarked

/-- The characters of a word in such a text are neither blanks nor breaks. -/
theorem unblank {w run : List Char} (h : BareRest w) (hsub : ∀ c ∈ run, c ∈ w)
    (hrun : ∀ c ∈ run, c ≠ ' ') : ∀ c ∈ run, isBlank c = false ∧ isBreak c = false := by
  intro c hc
  have hspace : isSpace c = false := by simpa [isSpace] using hrun c hc
  exact ⟨by rw [isBlank_eq_isSpace (h.printable c (hsub c hc)), hspace],
    h.unbroken c (hsub c hc)⟩

/-- Such a text begins with neither a blank nor a break. -/
theorem begins {w : List Char} (h : BareRest w) :
    ∀ c ∈ w.head?, isBlank c = false ∧ isBreak c = false := by
  intro c hc
  obtain ⟨w, rfl⟩ := List.head?_eq_some_iff.1 hc
  have hspace : ∀ d ∈ [c], d ≠ ' ' := by simpa using h.head
  exact h.unblank (by simp) hspace c List.mem_cons_self

/-- A bare text is a word, or it begins with a word and some spaces. -/
theorem split {w : List Char} (h : BareRest w) : (∀ c ∈ w, c ≠ ' ') ∨
    ∃ run n more, w = run ++ margin (n + 1) ++ more ∧ run ≠ [] ∧ (∀ c ∈ run, c ≠ ' ') ∧
      BareRest more := by
  obtain ⟨run, behind, rfl, hrun, hbehind⟩ := exists_run (fun c => !isSpace c) w
  have hrun' : ∀ c ∈ run, c ≠ ' ' := by simpa [isSpace] using hrun
  obtain ⟨spaces, more, rfl, hspaces, hmore⟩ := exists_run isSpace behind
  cases spaces with
  | nil =>
      left
      cases more with
      | nil => simpa using hrun'
      | cons d more => simpa [hmore d rfl] using hbehind d rfl
  | cons b spaces =>
      right
      rw [eq_margin hspaces, List.length_cons, ← List.append_assoc] at h ⊢
      have hmore' : more.head? ≠ some ' ' := fun hhead => by simpa [isSpace] using hmore ' ' hhead
      refine ⟨run, spaces.length, more, rfl, ?_, hrun', h.of_append ?_ hmore'⟩
      · rintro rfl
        exact h.head (by simp [margin_succ])
      · rintro rfl
        exact h.last (by simp [margin, List.replicate_succ'])

end BareRest

/-- To go on behind some characters moves the cursor by their number. -/
theorem Cursor.goTo_append (run cs : List Char) :
    (Cursor.mk (run ++ cs) col st).goTo cs = ⟨cs, col + run.length, false⟩ := by
  simp [goTo, advance]

/-- A word is read first, then the white space behind it, and then what follows if it belongs to
the same text. -/
theorem bareFrom_eq {cur next : Cursor} {run : List Char} {gap : Gap} (hmark : cur.isMark = false)
    (hhead : cur.rest.head? ≠ some '#') (hrun : bareRun false cur.rest = some (run, cs))
    (hne : run ≠ []) (hgap : (cur.goTo cs).gap floor = some (gap, next)) (fuel : Nat) :
    bareFrom false floor (fuel + 1) cur =
      if gap.blanks.isEmpty && !gap.isBroken then some (run, false, next)
      else if next.column < floor then some (run, gap.isBroken, next)
      else (bareFrom false floor fuel next).map fun (more, broken, last) =>
        if more.isEmpty then (run, gap.isBroken, last)
        else (run ++ gap.text ++ more, gap.isBroken || broken, last) := by
  have hempty : run.isEmpty = false := by simpa using hne
  have hcomment : (cur.rest.head? == some '#') = false := by simpa using hhead
  rw [bareFrom, hmark, hcomment, hrun]
  simp only [Bool.or_self, Bool.false_eq_true, if_false, Option.bind_eq_bind, Option.bind_some,
    hempty, hgap, Bool.not_false, Bool.true_and, decide_eq_true_eq]
  split
  · rfl
  · split
    · rfl
    · cases bareFrom false floor fuel next with
      | none => rfl
      | some r =>
          obtain ⟨more, broken, last⟩ := r
          simp only [Option.bind_some, Option.map_some]
          split <;> rfl

/-- The rest of a bare text is read up to the end of its line. -/
theorem bareFrom_bare (h : Follows tail k rest) (hk : k < floor) {fuel : Nat} {w : List Char}
    (hfuel : w.length < fuel) (hw : BareRest w) (hcol : floor ≤ col) :
    bareFrom false floor fuel ⟨w ++ '\n' :: tail, col, st⟩ = some (w, true, ⟨rest, k, true⟩) := by
  induction fuel generalizing w col st with
  | zero => exact absurd hfuel (Nat.not_lt_zero _)
  | succ fuel ih =>
      have hmark : (Cursor.mk (w ++ '\n' :: tail) col st).isMark = false :=
        Cursor.isMark_of_column_ne (by omega)
      have hhead : (w ++ '\n' :: tail).head? ≠ some '#' := by
        rw [List.head?_append_of_ne_nil _ hw.ne_nil]
        exact hw.head_ne
      rcases hw.split with hword | ⟨run, n, more, rfl, hne, hrun, hmore⟩
      · -- the last word ends with its line
        have hread : bareRun false (w ++ '\n' :: tail) = some (w, '\n' :: tail) :=
          bareRun_append (hw.unblank (fun _ hc => hc) hword) hw.unmarked (.inl rfl)
        have hgap : ((Cursor.mk (w ++ '\n' :: tail) col st).goTo ('\n' :: tail)).gap floor =
            some ({ breaks := ['\n'] }, ⟨rest, k, true⟩) := by
          rw [Cursor.goTo_append]
          exact Cursor.gap_lineEnd h
        rw [bareFrom_eq hmark hhead hread hw.ne_nil hgap, if_neg (by decide), if_pos hk]
        rfl
      · -- behind the first word there are spaces, and then the rest of the text
        have hsplit : run ++ margin (n + 1) ++ more ++ '\n' :: tail =
            run ++ (margin (n + 1) ++ (more ++ '\n' :: tail)) := by simp
        rw [hsplit] at hmark hhead ⊢
        have hunmarked : hasMark true run = false := by
          have hall := hw.unmarked
          rw [hasMark_margin, Bool.or_eq_false_iff] at hall
          exact hall.1
        have hread : bareRun false (run ++ (margin (n + 1) ++ (more ++ '\n' :: tail))) =
            some (run, margin (n + 1) ++ (more ++ '\n' :: tail)) :=
          bareRun_append (hw.unblank (by simp +contextual) hrun) hunmarked (.inl rfl)
        have hbegins :
            ∀ c ∈ (more ++ '\n' :: tail).head?, isBlank c = false ∧ isBreak c = false := by
          rw [List.head?_append_of_ne_nil _ hmore.ne_nil]
          exact hmore.begins
        have hgap : ((Cursor.mk (run ++ (margin (n + 1) ++ (more ++ '\n' :: tail))) col st).goTo
            (margin (n + 1) ++ (more ++ '\n' :: tail))).gap floor =
              some ({ blanks := margin (n + 1) },
                ⟨more ++ '\n' :: tail, col + run.length + (n + 1), false⟩) := by
          rw [Cursor.goTo_append, Cursor.gap, Cursor.gapFrom_blanks rfl,
            Cursor.gapFrom_of_begins hbegins]
          rfl
        rw [bareFrom_eq hmark hhead hread hne hgap, if_neg (by simp [margin_succ]),
          if_neg (by simp; omega), ih (by simp [margin_succ] at hfuel; omega) hmore (by omega)]
        simp [hmore.ne_nil, Gap.text, Gap.isBroken]

end PointsTo.Yaml
