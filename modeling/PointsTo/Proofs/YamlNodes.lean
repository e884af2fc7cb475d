import PointsTo.Proofs.YamlBlocks
import PointsTo.Yaml.Reader

/-!
# Written YAML is read back

A value is read back wherever it stands: behind the key or the dash that it belongs to, and in
front of anything that is no further to the right.  Texts that are written bare are read as words,
but never as null.  How often reading may go down is bounded by the length of the text.

Main definitions:

- {lit}`IsBare`, {lit}`IsKey`: texts that can be written bare, and names of entries.
- {lit}`Node.WellFormed`: values whose words and keys can be written bare.
- {lit}`Node.asRead`: the value that is read for a written one.

Main results:

- Theorem {lit}`fits_styleOf`: a text has the form that its style asks for.
- Theorem {lit}`readItems_writeItems`, {lit}`readEntries_writeEntries`: lists and maps are read
  back if their members are.
- Theorem {lit}`Node.WellFormed.readBack`: well-formed values are read back.
-/

namespace PointsTo.Yaml

variable {c : Char} {cs tail rest : List Char} {floor k col fuel indent : Nat} {st : Bool}

/-! ## Words -/

/-- Where a word does not end, it does not end in front of more characters either. -/
theorem atWordEnd_append (h : atWordEnd cs = false) (rest : List Char) :
    atWordEnd (cs ++ rest) = false := by
  cases cs with
  | nil => simp [atWordEnd] at h
  | cons c cs => exact h

/-- A word begins as it may with a dash, a question mark or a colon if more of it follows, and else
with no indicator. -/
theorem beginsOddly_cons (h : beginsOddly (c :: cs) = false) :
    if c = '-' ∨ c = '?' ∨ c = ':' then atWordEnd cs = false
    else indicators.contains c = false := by
  unfold beginsOddly at h
  split at h
  · cases h
  · cases h
  · rename_i heq
    cases heq
    split at h
    · rwa [if_pos ‹_›]
    · rwa [if_neg ‹_›]
  · rename_i heq
    cases heq

/-- A text that can be written bare as it is. -/
structure IsBare (w : List Char) : Prop where
  ne_nil : w ≠ []
  fits : fitsBare w = true

instance (w : List Char) : Decidable (IsBare w) :=
  decidable_of_iff (w ≠ [] ∧ fitsBare w = true) ⟨fun h => ⟨h.1, h.2⟩, fun h => ⟨h.1, h.2⟩⟩

namespace IsBare

variable {w : List Char}

/-- The characters of a bare word may all stand in one. -/
theorem bareRest (h : IsBare w) : BareRest w := bareRest_of_fitsBare h.ne_nil h.fits

/-- A bare word begins as one may. -/
theorem beginsOddly_eq (h : IsBare w) : beginsOddly w = false := by
  have hfits := h.fits
  simp only [fitsBare, Bool.and_eq_true, Bool.not_eq_true'] at hfits
  exact hfits.1.1.1.2

/-- Characters with a meaning of their own do not begin a bare text. -/
theorem head?_ne (h : IsBare w) (hc : c ∈ indicators) (hnot : c ≠ '-' ∧ c ≠ '?' ∧ c ≠ ':')
    (rest : List Char) : (w ++ rest).head? ≠ some c := by
  rw [List.head?_append_of_ne_nil _ h.ne_nil]
  intro hhead
  obtain ⟨w, rfl⟩ := List.head?_eq_some_iff.1 hhead
  have hodd := beginsOddly_cons h.beginsOddly_eq
  rw [if_neg (by simp [hnot])] at hodd
  simp [hc] at hodd

/-- A bare word begins with no blank, no break and no comment. -/
theorem begins (h : IsBare w) (rest : List Char) : ∃ c cs, w ++ rest = c :: cs ∧
    isBlank c = false ∧ isBreak c = false ∧ c ≠ '#' := by
  obtain ⟨c, w, rfl⟩ := List.exists_cons_of_ne_nil h.ne_nil
  obtain ⟨hblank, hbreak⟩ := h.bareRest.begins c rfl
  refine ⟨c, w ++ rest, rfl, hblank, hbreak, ?_⟩
  rintro rfl
  exact h.bareRest.head_ne rfl

/-- A bare word is no dash of a list. -/
theorem isDash_eq (h : IsBare w) (rest : List Char) :
    (Cursor.mk (w ++ rest) col st).isDash = false := by
  obtain ⟨c, w, rfl⟩ := List.exists_cons_of_ne_nil h.ne_nil
  have hodd := beginsOddly_cons h.beginsOddly_eq
  unfold Cursor.isDash
  split
  · rename_i heq
    cases heq
    exact atWordEnd_append (by simpa using hodd) rest
  · rfl

/-- A bare word is recognised as such, whatever follows it. -/
theorem beginsBare_eq (h : IsBare w) (rest : List Char) : beginsBare false (w ++ rest) = true := by
  obtain ⟨c, w, rfl⟩ := List.exists_cons_of_ne_nil h.ne_nil
  have hodd := beginsOddly_cons h.beginsOddly_eq
  obtain ⟨hblank, hbreak⟩ := h.bareRest.begins c rfl
  rw [List.cons_append, beginsBare, if_neg (by simp [hblank, hbreak])]
  split
  · rename_i hdash
    rw [if_pos (.inl hdash)] at hodd
    simp [atWordEnd_append hodd]
  · rename_i hdash
    split
    · rename_i hmark
      rw [if_pos (.inr hmark)] at hodd
      simp [atWordEnd_append hodd]
    · rename_i hmark
      rw [if_neg fun h => h.elim hdash hmark] at hodd
      rw [hodd]
      rfl

/-- A bare text that is a value is read up to the end of its line. -/
theorem read?_eq (h : IsBare w) (hfollows : Follows tail k rest) (hk : k < floor)
    (hcol : floor ≤ col) : Scalar.read? false floor ⟨w ++ '\n' :: tail, col, st⟩ =
      some ⟨.word (String.ofList w), w, true, ⟨rest, k, true⟩⟩ := by
  have hsingle := h.head?_ne (c := '\'') (by decide) (by decide) ('\n' :: tail)
  have hdouble := h.head?_ne (c := '"') (by decide) (by decide) ('\n' :: tail)
  have hfuel : w.length < (w ++ '\n' :: tail).length + 1 := by
    rw [List.length_append]
    omega
  unfold Scalar.read?
  simp only
  split
  · rename_i heq
    simp [heq] at hsingle
  · rename_i heq
    simp [heq] at hdouble
  · rw [h.beginsBare_eq, if_pos rfl, bareFrom_bare hfollows hk hfuel h.bareRest hcol]
    rfl

end IsBare

/-! ### Numbers -/

/-- No pair is found where no character may begin one. -/
theorem hasPair_of_forall {p q : Char → Bool} (h : ∀ c ∈ cs, p c = false) :
    hasPair p q cs = false := by
  induction cs with
  | nil => rfl
  | cons c cs ih =>
      obtain ⟨hc, hcs⟩ := List.forall_mem_cons.1 h
      cases cs with
      | nil => rfl
      | cons d cs => rw [hasPair, hc, Bool.false_and, Bool.false_or, ih hcs]

/-- No mark is found without a colon and without a number sign. -/
theorem hasMark_of_forall (h : ∀ c ∈ cs, c ≠ ':' ∧ c ≠ '#') (b : Bool) : hasMark b cs = false := by
  induction cs generalizing b with
  | nil => rfl
  | cons c cs ih =>
      obtain ⟨⟨hcolon, hcomment⟩, hcs⟩ := List.forall_mem_cons.1 h
      simp [hasMark, hcolon, hcomment, ih hcs]

/-- Nothing in a row of digits has a meaning of its own. -/
theorem isBare_of_isDigit (hne : cs ≠ []) (h : ∀ c ∈ cs, c.isDigit = true) : IsBare cs := by
  have hplain : ∀ c ∈ cs, (isPrintable c = true ∧ isSpace c = false ∧ isBreak c = false) ∧
      c ≠ ':' ∧ c ≠ '#' := by
    have hall : "0123456789".toList.all (fun c => isPrintable c && !isSpace c && !isBreak c &&
        c != ':' && c != '#') = true := by decide
    intro c hc
    simpa [and_assoc] using List.all_eq_true.1 hall c (mem_digits (h c hc))
  have hodd : beginsOddly cs = false := by
    obtain ⟨c, cs, rfl⟩ := List.exists_cons_of_ne_nil hne
    have hall : ∀ c ∈ "0123456789".toList, beginsOddly (c :: cs) = false := by
      simp [beginsOddly, indicators]
    exact hall c (mem_digits (h c List.mem_cons_self))
  have hprintable : cs.all isPrintable = true := List.all_eq_true.2 fun c hc => (hplain c hc).1.1
  have hbreak : cs.any isBreak = false :=
    List.any_eq_false.2 fun c hc => by simp [(hplain c hc).1.2.2]
  have hpair : hasPair isSpace isBreak cs = false :=
    hasPair_of_forall fun c hc => (hplain c hc).1.2.1
  have hmark : hasMark true cs = false := hasMark_of_forall (fun c hc => (hplain c hc).2) true
  have hhead : cs.head?.any isSpace = false :=
    (Option.any_eq_false _ _).2 fun c hc => (hplain c (List.mem_of_head? hc)).1.2.1
  have hlast : cs.getLast?.any isSpace = false :=
    (Option.any_eq_false _ _).2 fun c hc => (hplain c (List.mem_of_getLast? hc)).1.2.1
  exact ⟨hne, by simp [fitsBare, isClean, hodd, hprintable, hbreak, hpair, hmark, hhead, hlast]⟩

/-- Numbers are bare words. -/
theorem isBare_toString (n : Nat) : IsBare (toString n).toList := by
  rw [Nat.toString_eq_ofList_toDigits, String.toList_ofList]
  exact isBare_of_isDigit Nat.toDigits_ne_nil fun c hc =>
    Nat.isDigit_of_mem_toDigits (by decide) (by decide) hc

/-! ## Scalars -/

/-- A quoted text is read as what was quoted. -/
theorem read?_of_quoted {double : Bool} {written : List Char}
    (h : Quoted double ((quoteOf double :: written).length + 1) written cs rest) :
    ∃ broken col', Scalar.read? false floor ⟨quoteOf double :: written, col, st⟩ =
      some ⟨.text (String.ofList cs), cs, broken, ⟨rest, col', false⟩⟩ := by
  obtain ⟨broken, col', hread⟩ := h (col + 1) false
  refine ⟨broken, col', ?_⟩
  have hadvance : (Cursor.mk (quoteOf double :: written) col st).advance 1 =
      ⟨written, col + 1, false⟩ := rfl
  rw [← hadvance] at hread
  unfold Scalar.read?
  cases double with
  | false => exact congrArg (Option.map _) hread
  | true => exact congrArg (Option.map _) hread

/-- Only a scalar on one line is a key. -/
theorem colon?_of_broken {s : Scalar} (h : s.broken = true) (start : Cursor) :
    s.colon? false start = none := by
  unfold Scalar.colon?
  simp only [h, Bool.not_true, Bool.false_and, Bool.false_eq_true, if_false]
  split <;> rfl

/-- At the end of its line a scalar is no key. -/
theorem colon?_of_lineFeed {s : Scalar} (h : s.next = ⟨'\n' :: tail, col, st⟩) (start : Cursor) :
    s.colon? false start = none := by
  have hblanks : (s.next.skipBlanks).rest = '\n' :: tail := by
    rw [h]
    simp [Cursor.skipBlanks, Cursor.goTo, Cursor.advance, isBlank]
  unfold Scalar.colon?
  simp only [hblanks]
  split
  · rename_i heq
    cases heq
  · rfl

/-- A node that ends where the next line begins is settled. -/
theorem settle_of_begins (x : Node) (h : Follows tail k rest) :
    settle (x, ⟨rest, k, true⟩) = some (x, ⟨rest, k, true⟩) := by
  simp [settle, Cursor.skip_of_begins h]

/-- A node that ends in front of a line feed is settled on the line that follows. -/
theorem settle_of_lineFeed (x : Node) (h : Follows tail k rest) :
    settle (x, ⟨'\n' :: tail, col, st⟩) = some (x, ⟨rest, k, true⟩) := by
  simp [settle, Cursor.skip_lineEnd h]

/-- The characters that a value begins with which is neither a scalar nor in block form. -/
def openers : List Char := ['|', '[', '\x7b']

/-- A scalar is a value or the first key of a map. -/
theorem readNode_scalar {cur : Cursor} {s : Scalar} (hdash : cur.isDash = false)
    (hhead : ∀ c ∈ openers, cur.rest.head? ≠ some c)
    (hread : Scalar.read? false floor cur = some s) : readNode (fuel + 1) floor cur =
      if cur.atStart && (s.colon? false cur).isSome then
        (readEntries fuel cur.column cur).map fun (es, c) => (.map es, c)
      else settle (s.node, s.next) := by
  rw [readNode, hdash, if_neg Bool.false_ne_true]
  split
  · rename_i heq
    simp [heq, openers] at hhead
  · rename_i heq
    simp [heq, openers] at hhead
  · rename_i heq
    simp [heq, openers] at hhead
  · simp only [hread, Option.bind_eq_bind, Option.bind_some]
    split
    · cases readEntries fuel cur.column cur <;> rfl
    · rfl

/-- No bare word opens a list or a map. -/
theorem IsBare.head?_openers {w : List Char} (h : IsBare w) (rest : List Char) :
    ∀ c ∈ openers, (w ++ rest).head? ≠ some c := by
  intro c hc
  simp only [openers, List.mem_cons, List.not_mem_nil, or_false] at hc
  rcases hc with rfl | rfl | rfl <;> exact h.head?_ne (by decide) (by decide) _

/-- A bare word that ends its line is read as it stands. -/
theorem readNode_bare {w : List Char} (h : IsBare w) (hfollows : Follows tail k rest)
    (hk : k < floor) (hcol : floor ≤ col) :
    readNode (fuel + 1) floor ⟨w ++ '\n' :: tail, col, st⟩ =
      some (.word (String.ofList w), ⟨rest, k, true⟩) := by
  rw [readNode_scalar (h.isDash_eq _) (h.head?_openers _) (h.read?_eq hfollows hk hcol),
    colon?_of_broken rfl, Option.isSome_none, Bool.and_false, if_neg Bool.false_ne_true]
  exact settle_of_begins _ hfollows

/-- So is a quoted text. -/
theorem readNode_quoted {double : Bool} {written : List Char} (hfollows : Follows tail k rest)
    (h : Quoted double ((quoteOf double :: written).length + 1) written cs ('\n' :: tail)) :
    readNode (fuel + 1) floor ⟨quoteOf double :: written, col, st⟩ =
      some (.text (String.ofList cs), ⟨rest, k, true⟩) := by
  obtain ⟨broken, col', hread⟩ : ∃ broken col',
      Scalar.read? false floor ⟨quoteOf double :: written, col, st⟩ =
        some ⟨.text (String.ofList cs), cs, broken, ⟨'\n' :: tail, col', false⟩⟩ :=
    read?_of_quoted h
  have hdash : (Cursor.mk (quoteOf double :: written) col st).isDash = false := by
    cases double <;> rfl
  have hhead : ∀ c ∈ openers, (quoteOf double :: written).head? ≠ some c := by
    cases double <;> simp [quoteOf, openers]
  rw [readNode_scalar hdash hhead hread, colon?_of_lineFeed rfl, Option.isSome_none, Bool.and_false,
    if_neg Bool.false_ne_true]
  exact settle_of_lineFeed _ hfollows

/-! ## Texts -/

/-- What a text is like that is written in a form. -/
def Fits (s : String) : Style → Prop
  | .bare => IsBare s.toList ∧ Word.isNull s = false
  | .single => SingleRest s.toList
  | .double => True
  | .block => s.toList ≠ [] ∧ ∀ c ∈ s.toList, isPrintable c = true

/-- The style that is chosen for a text fits it. -/
theorem fits_styleOf (s : String) : Fits s (styleOf s) := by
  unfold styleOf
  simp only
  split
  · rename_i hfeed
    split
    · rename_i hblock
      simp only [fitsBlock, isClean, Bool.and_eq_true, List.all_eq_true] at hblock
      refine ⟨fun hnil => ?_, hblock.1.1⟩
      simp [hnil] at hfeed
    · exact trivial
  · rename_i hfeed
    split
    · rename_i hbare
      simp only [Bool.and_eq_true, Bool.not_eq_true', Word.isAmbiguous,
        Bool.or_eq_false_iff] at hbare
      have hnull := hbare.1.1.1.1.1
      refine ⟨⟨fun hnil => ?_, hbare.2⟩, hnull⟩
      simp [Word.isNull, String.toList_eq_nil_iff.1 hnil] at hnull
    · split
      · rename_i hsingle
        simp only [fitsSingle, isClean, Bool.and_eq_true, Bool.not_eq_true',
          List.all_eq_true] at hsingle
        exact ⟨hsingle.1.1, by simpa using hfeed, hsingle.1.2, hsingle.2⟩
      · exact trivial

/-- A text that is written bare is read as a word. -/
def textAsRead (s : String) : Node := if styleOf s = .bare then .word s else .text s

/-- A text is read back as it was written, in whatever style that was. -/
theorem readNode_text (s : String) (hfollows : Follows tail k rest) (hk : k < floor)
    (hcol : floor ≤ col) : readNode (fuel + 1) floor ⟨writeText (floor + 1) s ++ tail, col, st⟩ =
      some (textAsRead s, ⟨rest, k, true⟩) := by
  have hfits := fits_styleOf s
  have hrest : ('\n' :: tail).head? ≠ some '\'' := by simp
  unfold writeText textAsRead
  cases hstyle : styleOf s with
  | bare =>
      rw [hstyle] at hfits
      have hread : readNode (fuel + 1) floor ⟨s.toList ++ '\n' :: tail, col, st⟩ =
          some (.word (String.ofList s.toList), ⟨rest, k, true⟩) :=
        readNode_bare hfits.1 hfollows hk hcol
      simpa using hread
  | single =>
      rw [hstyle] at hfits
      have hread : readNode (fuel + 1) floor
          ⟨quoteOf false :: (writeSingle (floor + 1) s.toList ++ '\'' :: '\n' :: tail), col, st⟩ =
            some (.text (String.ofList s.toList), ⟨rest, k, true⟩) :=
        readNode_quoted hfollows (quoted_single hrest hfits
          (by simp only [List.length_cons, List.length_append]; omega))
      simpa [quoteOf] using hread
  | double =>
      have hread : readNode (fuel + 1) floor
          ⟨quoteOf true :: (s.toList.flatMap escape ++ '"' :: '\n' :: tail), col, st⟩ =
            some (.text (String.ofList s.toList), ⟨rest, k, true⟩) :=
        readNode_quoted hfollows (quoted_double hrest
          (by simp only [List.length_cons, List.length_append]; omega))
      simpa [quoteOf] using hread
  | block =>
      rw [hstyle] at hfits
      have hread : readBlock? floor ⟨writeBlock (floor + 1) s.toList ++ tail, col, st⟩ =
          some (.text (String.ofList s.toList), ⟨rest, k, true⟩) :=
        readBlock?_writeBlock hfollows hk hfits.1 hfits.2
      obtain ⟨body, hbody⟩ : ∃ body, writeBlock (floor + 1) s.toList ++ tail = '|' :: body :=
        ⟨_, rfl⟩
      simp only [hbody] at hread ⊢
      simp [readNode, Cursor.isDash, hread, settle_of_begins _ hfollows]

/-! ## Keys -/

/-- A name that can be written bare as the key of an entry. -/
structure IsKey (key : String) : Prop where
  bare : IsBare key.toList
  unspaced : ' ' ∉ key.toList
  length : key.toList.length ≤ Scalar.keyLimit

instance (key : String) : Decidable (IsKey key) :=
  decidable_of_iff (IsBare key.toList ∧ ' ' ∉ key.toList ∧
    key.toList.length ≤ Scalar.keyLimit) ⟨fun h => ⟨h.1, h.2.1, h.2.2⟩, fun h => ⟨h.1, h.2, h.3⟩⟩

namespace IsKey

variable {key : String}

/-- A key does not begin like a mark between documents. -/
theorem isMark_eq (h : IsKey key) (rest : List Char) :
    (Cursor.mk (key.toList ++ ':' :: rest) col st).isMark = false := by
  have hodd := h.bare.beginsOddly_eq
  rw [Cursor.isMark, Bool.and_eq_false_iff]
  right
  split
  · rename_i heq
    rcases hkey : key.toList with _ | ⟨a, _ | ⟨b, _ | ⟨c, cs⟩⟩⟩ <;> simp [hkey] at heq
    obtain ⟨rfl, rfl, rfl, -⟩ := heq
    simp [hkey, beginsOddly] at hodd
  · rename_i heq
    rcases hkey : key.toList with _ | ⟨a, _ | ⟨b, _ | ⟨c, cs⟩⟩⟩ <;> simp [hkey] at heq
    obtain ⟨rfl, rfl, rfl, -⟩ := heq
    simp [hkey, beginsOddly] at hodd
  · rfl

/-- A key is read up to its colon. -/
theorem read?_eq (h : IsKey key) (hrest : atWordEnd rest = true) :
    Scalar.read? false floor ⟨key.toList ++ ':' :: rest, col, st⟩ =
      some ⟨.word key, key.toList, false, ⟨':' :: rest, col + key.toList.length, false⟩⟩ := by
  have hsingle := h.bare.head?_ne (c := '\'') (by decide) (by decide) (':' :: rest)
  have hdouble := h.bare.head?_ne (c := '"') (by decide) (by decide) (':' :: rest)
  have hcomment := h.bare.head?_ne (c := '#') (by decide) (by decide) (':' :: rest)
  have hspaces : ∀ c ∈ key.toList, c ≠ ' ' := fun c hc hspace => h.unspaced (hspace ▸ hc)
  have hrun : bareRun false (key.toList ++ ':' :: rest) = some (key.toList, ':' :: rest) :=
    bareRun_append (h.bare.bareRest.unblank (fun _ hc => hc) hspaces) h.bare.bareRest.unmarked
      (.inr ⟨rest, rfl, hrest⟩)
  have hgap : ((Cursor.mk (key.toList ++ ':' :: rest) col st).goTo (':' :: rest)).gap floor =
      some ({}, ⟨':' :: rest, col + key.toList.length, false⟩) := by
    rw [Cursor.goTo_append, Cursor.gap, Cursor.gapFrom_of_begins (forall_head?_cons (by decide) _)]
    rfl
  unfold Scalar.read?
  simp only
  split
  · rename_i heq
    simp [heq] at hsingle
  · rename_i heq
    simp [heq] at hdouble
  · rw [h.bare.beginsBare_eq, if_pos rfl,
      bareFrom_eq (h.isMark_eq rest) hcomment hrun h.bare.ne_nil hgap]
    simp [Gap.isBroken]

/-- A key is read up to its colon. -/
theorem colon?_eq (h : IsKey key) (hrest : atWordEnd rest = true) :
    Scalar.colon? ⟨.word key, key.toList, false, ⟨':' :: rest, col + key.toList.length, false⟩⟩
      false ⟨key.toList ++ ':' :: rest, col, st⟩ =
        some ⟨rest, col + key.toList.length + 1, false⟩ := by
  have hblanks : (Cursor.mk (':' :: rest) (col + key.toList.length) false).skipBlanks =
      ⟨':' :: rest, col + key.toList.length, false⟩ := by
    simp [Cursor.skipBlanks, Cursor.goTo, Cursor.advance, isBlank]
  have hlength := h.length
  unfold Scalar.colon?
  simp only [hblanks]
  rw [if_pos]
  · rfl
  · simp [hrest]
    omega

end IsKey

/-! ## Collections -/

/-- A value that can be written: its words are bare, and so are its keys. -/
inductive Node.WellFormed : Node → Prop
  | word {w} (h : IsBare w.toList) : WellFormed (.word w)
  | text (s) : WellFormed (.text s)
  | list {xs} (h : ∀ x ∈ xs, WellFormed x) : WellFormed (.list xs)
  | map {es} (hkeys : ∀ e ∈ es, IsKey e.1) (h : ∀ e ∈ es, WellFormed e.2) : WellFormed (.map es)

/-- The value that is read where a value was written. -/
def Node.asRead : Node → Node
  | word w => word w
  | text s => textAsRead s
  | list xs => list (xs.map asRead)
  | map es => map (es.map fun e => (e.1, asRead e.2))
decreasing_by
  · decreasing_tactic
  · rename_i he
    have hsize : sizeOf e.2 < sizeOf e := by
      cases e
      simp only [Prod.mk.sizeOf_spec]
      omega
    have hmem := List.sizeOf_lt_of_mem he
    simp only [map.sizeOf_spec]
    omega

/-- A value that is read back, behind a key and as an item of a list. -/
structure Node.ReadBack (x : Node) : Prop where
  value {indent fuel col k : Nat} {tail rest : List Char} {st : Bool} (h : Follows tail k rest)
    (hk : k ≤ indent) (hdash : k = indent → (Cursor.mk rest k true).isDash = false)
    (hcol : indent < col) (hfuel : 4 * (x.writeValue indent ++ tail).length ≤ fuel) :
      readValue fuel indent true ⟨x.writeValue indent ++ tail, col, st⟩ =
        some (x.asRead, ⟨rest, k, true⟩)
  item {indent fuel k : Nat} {tail rest : List Char} (h : Follows tail k rest) (hk : k ≤ indent)
    (hfuel : 4 * (x.writeItem indent ++ tail).length ≤ fuel) :
      readValue fuel indent false ⟨x.writeItem indent ++ tail, indent + 1, true⟩ =
        some (x.asRead, ⟨rest, k, true⟩)

namespace Node

/-- An item begins with a blank. -/
theorem writeItem_eq (indent : Nat) (x : Node) : ∃ cs, x.writeItem indent = ' ' :: cs := by
  cases x with
  | word w => exact ⟨_, rfl⟩
  | text s => exact ⟨_, rfl⟩
  | list xs => cases xs <;> exact ⟨_, rfl⟩
  | map es => cases es <;> exact ⟨_, rfl⟩

/-- A value begins with a blank or a line feed, so that no word goes on into it. -/
theorem atWordEnd_writeValue (indent : Nat) (x : Node) (tail : List Char) :
    atWordEnd (x.writeValue indent ++ tail) = true := by
  cases x with
  | word w => rfl
  | text s => rfl
  | list xs => cases xs <;> rfl
  | map es => cases es <;> rfl

/-- Items begin with a dash and a blank. -/
theorem writeItems_eq (indent : Nat) (x : Node) (xs : List Node) :
    ∃ cs, writeItems indent (x :: xs) = '-' :: ' ' :: cs := by
  obtain ⟨cs, hcs⟩ := writeItem_eq indent x
  cases xs with
  | nil => exact ⟨cs, by rw [writeItems, hcs]⟩
  | cons y xs =>
      exact ⟨cs ++ (margin indent ++ writeItems indent (y :: xs)), by simp [writeItems, hcs]⟩

/-- Entries begin with their key and a colon, and the key ends there. -/
theorem writeEntries_eq (indent : Nat) (e : String × Node) (es : List (String × Node)) :
    ∃ cs, writeEntries indent (e :: es) = e.1.toList ++ ':' :: cs ∧
      ∀ tail, atWordEnd (cs ++ tail) = true := by
  obtain ⟨key, x⟩ := e
  cases es with
  | nil => exact ⟨_, rfl, atWordEnd_writeValue indent x⟩
  | cons e es =>
      refine ⟨x.writeValue indent ++ (margin indent ++ writeEntries indent (e :: es)),
        by simp [writeEntries], fun tail => ?_⟩
      rw [List.append_assoc]
      exact atWordEnd_writeValue indent x _

end Node

/-! ### Lists -/

section Items

variable {x : Node} {xs : List Node} {more : List Char} {cur last : Cursor}

/-- The last item of a list is read. -/
theorem readItems_last (hitem : readValue fuel indent false ⟨more, col + 1, true⟩ = some (x, cur))
    (hstop : (!cur.atEnd && cur.column == indent && cur.isDash) = false) :
    readItems (fuel + 1) indent ⟨'-' :: more, col, st⟩ = some ([x], cur) := by
  have hfirst : ({ (Cursor.mk ('-' :: more) col st).advance 1 with atStart := true } : Cursor) =
      ⟨more, col + 1, true⟩ := rfl
  rw [readItems, hfirst, hitem]
  simp only [Option.bind_eq_bind, Option.bind_some, hstop, Bool.false_eq_true, if_false, pure]

/-- An item is read in front of others. -/
theorem readItems_cons (hitem : readValue fuel indent false ⟨more, col + 1, true⟩ = some (x, cur))
    (hgo : (!cur.atEnd && cur.column == indent && cur.isDash) = true)
    (hmore : readItems fuel indent cur = some (xs, last)) :
    readItems (fuel + 1) indent ⟨'-' :: more, col, st⟩ = some (x :: xs, last) := by
  have hfirst : ({ (Cursor.mk ('-' :: more) col st).advance 1 with atStart := true } : Cursor) =
      ⟨more, col + 1, true⟩ := rfl
  rw [readItems, hfirst, hitem]
  simp only [Option.bind_eq_bind, Option.bind_some, hgo, if_true, hmore, pure]

/-- The dash of an item stands where a line begins, and is no mark between documents. -/
theorem goesOn_writeItems (indent : Nat) (x : Node) (xs : List Node) (tail : List Char) :
    let cur : Cursor := ⟨Node.writeItems indent (x :: xs) ++ tail, indent, true⟩
    cur.atEnd = false ∧ cur.isDash = true ∧
      Follows (margin indent ++ (Node.writeItems indent (x :: xs) ++ tail)) indent
        (Node.writeItems indent (x :: xs) ++ tail) := by
  obtain ⟨cs, hcs⟩ := Node.writeItems_eq indent x xs
  rw [hcs]
  refine ⟨?_, rfl, ⟨rfl, forall_head?_cons (by decide) _, nofun⟩⟩
  simp [Cursor.atEnd, Cursor.isMark]

/-- Items that are read back one by one are read back as a list. -/
theorem readItems_writeItems (hxs : ∀ x ∈ xs, x.ReadBack) (hne : xs ≠ [])
    (hfollows : Follows tail k rest) (hk : k ≤ indent)
    (hdash : k = indent → (Cursor.mk rest k true).isDash = false)
    (hfuel : 4 * (Node.writeItems indent xs ++ tail).length + 1 ≤ fuel) :
    readItems fuel indent ⟨Node.writeItems indent xs ++ tail, indent, st⟩ =
      some (xs.map Node.asRead, ⟨rest, k, true⟩) := by
  induction xs generalizing fuel st with
  | nil => exact absurd rfl hne
  | cons x xs ih =>
      obtain ⟨hx, hxs⟩ := List.forall_mem_cons.1 hxs
      obtain ⟨fuel, rfl⟩ : ∃ n, fuel = n + 1 := ⟨fuel - 1, by omega⟩
      cases xs with
      | nil =>
          rw [Node.writeItems, List.cons_append] at hfuel ⊢
          refine readItems_last (hx.item hfollows hk ?_) ?_
          · rw [List.length_cons] at hfuel
            omega
          · by_cases hk' : k = indent
            · simp [hdash hk']
            · simp [hk']
      | cons y ys =>
          obtain ⟨hend, hyes, hnext⟩ := goesOn_writeItems indent y ys tail
          have hsplit : Node.writeItems indent (x :: y :: ys) ++ tail =
              '-' :: (x.writeItem indent ++
                (margin indent ++ (Node.writeItems indent (y :: ys) ++ tail))) := by
            simp [Node.writeItems]
          rw [hsplit] at hfuel ⊢
          rw [List.length_cons, List.length_append, List.length_append] at hfuel
          refine readItems_cons (hx.item hnext (Nat.le_refl _) ?_) ?_
            (ih hxs (List.cons_ne_nil _ _) (by omega))
          · rw [List.length_append, List.length_append]
            omega
          · simp [hend, hyes]

end Items

/-! ### Maps -/

section Entries

variable {key : String} {x : Node} {es : List (String × Node)} {more : List Char}
  {cur last : Cursor}

/-- The last entry of a map is read. -/
theorem readEntries_last (hkey : IsKey key) (hmore : atWordEnd more = true)
    (hvalue : readValue fuel indent true ⟨more, col + key.toList.length + 1, false⟩ = some (x, cur))
    (hstop : (!cur.atEnd && cur.column == indent) = false) :
    readEntries (fuel + 1) indent ⟨key.toList ++ ':' :: more, col, st⟩ =
      some ([(key, x)], cur) := by
  rw [readEntries, hkey.read?_eq hmore]
  simp only [Option.bind_eq_bind, Option.bind_some, hkey.colon?_eq hmore, hvalue, hstop,
    Bool.false_eq_true, if_false, pure, Scalar.name, String.ofList_toList]

/-- An entry is read in front of others. -/
theorem readEntries_cons (hkey : IsKey key) (hmore : atWordEnd more = true)
    (hvalue : readValue fuel indent true ⟨more, col + key.toList.length + 1, false⟩ = some (x, cur))
    (hgo : (!cur.atEnd && cur.column == indent) = true)
    (hrest : readEntries fuel indent cur = some (es, last)) :
    readEntries (fuel + 1) indent ⟨key.toList ++ ':' :: more, col, st⟩ =
      some ((key, x) :: es, last) := by
  rw [readEntries, hkey.read?_eq hmore]
  simp only [Option.bind_eq_bind, Option.bind_some, hkey.colon?_eq hmore, hvalue, hgo, if_true,
    hrest, pure, Scalar.name, String.ofList_toList]

/-- The key of an entry stands where a line begins, and is no mark between documents. -/
theorem goesOn_writeEntries (indent : Nat) {e : String × Node} (hkey : IsKey e.1)
    (es : List (String × Node)) (tail : List Char) :
    let cur : Cursor := ⟨Node.writeEntries indent (e :: es) ++ tail, indent, true⟩
    cur.atEnd = false ∧ cur.isDash = false ∧
      Follows (margin indent ++ (Node.writeEntries indent (e :: es) ++ tail)) indent
        (Node.writeEntries indent (e :: es) ++ tail) := by
  obtain ⟨cs, hcs, -⟩ := Node.writeEntries_eq indent e es
  rw [hcs, List.append_assoc]
  refine ⟨?_, hkey.bare.isDash_eq _, ⟨rfl, fun c hc => ?_, fun hnil => ?_⟩⟩
  · have hne : e.1.toList ++ (':' :: cs ++ tail) ≠ [] := by simp
    rw [Cursor.atEnd, List.cons_append, hkey.isMark_eq]
    simp
  · rw [List.head?_append_of_ne_nil _ hkey.bare.ne_nil] at hc
    obtain ⟨hblank, hbreak⟩ := hkey.bare.bareRest.begins c hc
    refine ⟨hblank, hbreak, ?_⟩
    rintro rfl
    exact hkey.bare.bareRest.head_ne hc
  · simp at hnil

/-- Entries whose values are read back one by one are read back as a map. -/
theorem readEntries_writeEntries (hkeys : ∀ e ∈ es, IsKey e.1) (hes : ∀ e ∈ es, e.2.ReadBack)
    (hne : es ≠ []) (hfollows : Follows tail k rest) (hk : k ≤ indent)
    (hend : rest = [] ∨ k < indent)
    (hfuel : 4 * (Node.writeEntries indent es ++ tail).length + 1 ≤ fuel) :
    readEntries fuel indent ⟨Node.writeEntries indent es ++ tail, indent, st⟩ =
      some (es.map fun e => (e.1, e.2.asRead), ⟨rest, k, true⟩) := by
  induction es generalizing fuel st with
  | nil => exact absurd rfl hne
  | cons e es ih =>
      obtain ⟨key, x⟩ := e
      have hkey : IsKey key := hkeys _ List.mem_cons_self
      have hx : x.ReadBack := hes _ List.mem_cons_self
      obtain ⟨fuel, rfl⟩ : ∃ n, fuel = n + 1 := ⟨fuel - 1, by omega⟩
      cases es with
      | nil =>
          rw [Node.writeEntries, List.append_assoc, List.cons_append] at hfuel ⊢
          rw [List.length_append, List.length_cons] at hfuel
          refine readEntries_last hkey (Node.atWordEnd_writeValue _ _ _)
            (hx.value hfollows hk (fun hk' => ?_) (by omega) (by omega)) ?_
          · rcases hend with rfl | hlt
            · rfl
            · omega
          · rcases hend with rfl | hlt
            · rfl
            · simp [Nat.ne_of_lt hlt]
      | cons e es =>
          have hkeys' := fun e he => hkeys e (List.mem_cons_of_mem _ he)
          have hes' := fun e he => hes e (List.mem_cons_of_mem _ he)
          obtain ⟨hgo, hno, hnext⟩ :=
            goesOn_writeEntries indent (hkeys' e List.mem_cons_self) es tail
          have hsplit : Node.writeEntries indent ((key, x) :: e :: es) ++ tail =
              key.toList ++ ':' :: (x.writeValue indent ++
                (margin indent ++ (Node.writeEntries indent (e :: es) ++ tail))) := by
            simp [Node.writeEntries]
          rw [hsplit] at hfuel ⊢
          rw [List.length_append, List.length_cons, List.length_append, List.length_append] at hfuel
          refine readEntries_cons hkey (Node.atWordEnd_writeValue _ _ _)
            (hx.value hnext (Nat.le_refl _) (fun _ => hno) (by omega) ?_) ?_
            (ih hkeys' hes' (List.cons_ne_nil _ _) (by omega))
          · rw [List.length_append, List.length_append]
            omega
          · simp [hgo]

end Entries

/-! ### Values -/

section Values

variable {more : List Char} {dashes : Bool} {x : Node} {cur : Cursor}

/-- Where the value begins behind a key or a dash on the same line. -/
theorem readValue_inline (hne : more ≠ [])
    (hmore : ∀ c ∈ more.head?, isBlank c = false ∧ isBreak c = false ∧ c ≠ '#')
    (hcol : indent ≤ col) : readValue (fuel + 1) indent dashes ⟨' ' :: more, col, st⟩ =
      readNode fuel (indent + 1) ⟨more, col + 1, st⟩ := by
  have hskip : (Cursor.mk (' ' :: more) col st).skip false = ⟨more, col + 1, st⟩ := by
    have hmargin : (Cursor.mk (margin 1 ++ more) col st).skip false = _ :=
      Cursor.skipFrom_margin false 1 col more
    rwa [Cursor.skipFrom_of_begins hmore] at hmargin
  have hend : (Cursor.mk more (col + 1) st).atEnd = false := by
    simp [Cursor.atEnd, Cursor.isMark, hne]
  rw [readValue, hskip]
  simp only [hend, Bool.false_eq_true, if_false]
  rw [if_pos (Nat.lt_succ_of_le hcol)]

/-- A value that begins on a new line, further to the right. -/
theorem readValue_below (h : Follows tail k rest) (hend : (Cursor.mk rest k true).atEnd = false)
    (hk : indent < k) : readValue (fuel + 1) indent dashes ⟨'\n' :: tail, col, st⟩ =
      readNode fuel (indent + 1) ⟨rest, k, true⟩ := by
  rw [readValue, Cursor.skip_lineEnd h]
  simp only [hend, Bool.false_eq_true, if_false]
  rw [if_pos hk]

/-- A list whose dashes stand below its key. -/
theorem readValue_dashes (h : Follows tail indent rest)
    (hend : (Cursor.mk rest indent true).atEnd = false)
    (hdash : (Cursor.mk rest indent true).isDash = true) :
    readValue (fuel + 1) indent true ⟨'\n' :: tail, col, st⟩ =
      (readItems fuel indent ⟨rest, indent, true⟩).map fun (xs, c) => (.list xs, c) := by
  rw [readValue, Cursor.skip_lineEnd h]
  simp [hend, hdash]

/-- At a dash a list is read. -/
theorem readNode_items (hdash : (Cursor.mk more col true).isDash = true) :
    readNode (fuel + 1) floor ⟨more, col, true⟩ =
      (readItems fuel col ⟨more, col, true⟩).map fun (xs, c) => (.list xs, c) := by
  rw [readNode, hdash]
  rfl

/-- At a key a map is read. -/
theorem readNode_entries {key : String} (hkey : IsKey key) (hmore : atWordEnd more = true) :
    readNode (fuel + 1) floor ⟨key.toList ++ ':' :: more, col, true⟩ =
      (readEntries fuel col ⟨key.toList ++ ':' :: more, col, true⟩).map
        fun (es, c) => (.map es, c) := by
  rw [readNode_scalar (hkey.bare.isDash_eq _) (hkey.bare.head?_openers _) (hkey.read?_eq hmore),
    hkey.colon?_eq hmore]
  rfl

end Values

/-- A value that is written on the line of its key or dash is read back if it is read back there. -/
theorem readBack_inline {x : Node} (body : Nat → List Char)
    (hvalue : ∀ indent, x.writeValue indent = ' ' :: body indent)
    (hitem : ∀ indent, x.writeItem indent = ' ' :: body indent)
    (hbegins : ∀ indent tail, ∃ c cs, body indent ++ tail = c :: cs ∧ isBlank c = false ∧
      isBreak c = false ∧ c ≠ '#')
    (hread : ∀ {indent fuel col k : Nat} {tail rest : List Char} {st : Bool}, Follows tail k rest →
      k ≤ indent → indent < col → readNode (fuel + 1) (indent + 1) ⟨body indent ++ tail, col, st⟩ =
        some (x.asRead, ⟨rest, k, true⟩)) : x.ReadBack := by
  have hinline : ∀ {indent fuel col k : Nat} {tail rest : List Char} {st dashes : Bool},
      Follows tail k rest → k ≤ indent → indent ≤ col →
        4 * (' ' :: body indent ++ tail).length ≤ fuel →
          readValue fuel indent dashes ⟨' ' :: body indent ++ tail, col, st⟩ =
            some (x.asRead, ⟨rest, k, true⟩) := by
    intro indent fuel col k tail rest st dashes h hk hcol hfuel
    obtain ⟨fuel, rfl⟩ : ∃ n, fuel = n + 2 := ⟨fuel - 2, by
      rw [List.cons_append, List.length_cons] at hfuel
      omega⟩
    obtain ⟨c, cs, hcons, hc⟩ := hbegins indent tail
    rw [List.cons_append, readValue_inline (by simp [hcons])
      (by rw [hcons]; exact forall_head?_cons hc _) hcol]
    exact hread h hk (Nat.lt_succ_of_le hcol)
  constructor
  · intro indent fuel col k tail rest st h hk _ hcol hfuel
    rw [hvalue] at hfuel ⊢
    exact hinline h hk (Nat.le_of_lt hcol) hfuel
  · intro indent fuel k tail rest h hk hfuel
    rw [hitem] at hfuel ⊢
    exact hinline h hk (Nat.le_succ _) hfuel

/-- A text begins with no blank, no break and no comment. -/
theorem begins_writeText (indent : Nat) (s : String) (tail : List Char) :
    ∃ c cs, writeText indent s ++ tail = c :: cs ∧ isBlank c = false ∧ isBreak c = false ∧
      c ≠ '#' := by
  have hfits := fits_styleOf s
  unfold writeText
  cases hstyle : styleOf s with
  | bare =>
      rw [hstyle] at hfits
      simpa using hfits.1.begins ('\n' :: tail)
  | single => exact ⟨'\'', _, rfl, by decide⟩
  | double => exact ⟨'"', _, rfl, by decide⟩
  | block => exact ⟨'|', _, rfl, by decide⟩

/-- Bare words are read back. -/
theorem readBack_word {w : String} (h : IsBare w.toList) : (Node.word w).ReadBack := by
  refine readBack_inline (fun _ => w.toList ++ ['\n']) (fun _ => rfl) (fun _ => rfl) ?_ ?_
  · intro indent tail
    simpa using h.begins ('\n' :: tail)
  · intro indent fuel col k tail rest st hfollows hk hcol
    have hread : readNode (fuel + 1) (indent + 1) ⟨w.toList ++ '\n' :: tail, col, st⟩ =
        some (.word (String.ofList w.toList), ⟨rest, k, true⟩) :=
      readNode_bare h hfollows (Nat.lt_succ_of_le hk) hcol
    simpa [Node.asRead] using hread

/-- Texts are read back. -/
theorem readBack_text (s : String) : (Node.text s).ReadBack := by
  refine readBack_inline (fun indent => writeText (indent + 2) s) (fun _ => rfl) (fun _ => rfl)
    (fun indent tail => begins_writeText _ s tail) ?_
  intro indent fuel col k tail rest st hfollows hk hcol
  rw [Node.asRead]
  exact readNode_text s hfollows (Nat.lt_succ_of_le hk) hcol

/-- An empty collection in brackets is read up to the end of its line. -/
theorem readNode_flow {bracket : Char} {more : List Char} {x : Node}
    (hbracket : bracket = '[' ∨ bracket = '\x7b') (hfollows : Follows tail k rest)
    (hread : ∀ n, ∃ col' st', readFlow floor (n + 2) ⟨bracket :: more, col, st⟩ =
      some (x, ⟨'\n' :: tail, col', st'⟩)) :
    readNode (fuel + 1) floor ⟨bracket :: more, col, st⟩ = some (x, ⟨rest, k, true⟩) := by
  obtain ⟨n, hn⟩ : ∃ n, 2 * (bracket :: more).length = n + 2 :=
    ⟨2 * more.length, by rw [List.length_cons]; omega⟩
  obtain ⟨col', st', hread⟩ := hread n
  have hdash : (Cursor.mk (bracket :: more) col st).isDash = false := by
    rcases hbracket with rfl | rfl <;> rfl
  rw [readNode, hdash, if_neg Bool.false_ne_true]
  rcases hbracket with rfl | rfl <;>
    simp only [hn, hread, Option.bind_some, settle_of_lineFeed x hfollows]

/-- A closing bracket is not skipped. -/
theorem skip_closing {bracket : Char} (h : bracket = ']' ∨ bracket = '\x7d') (more : List Char) :
    (Cursor.mk (bracket :: more) col st).skip true = ⟨bracket :: more, col, st⟩ := by
  refine Cursor.skipFrom_of_begins (forall_head?_cons ?_ _) true
  rcases h with rfl | rfl <;> decide

/-- The empty list is read back. -/
theorem readBack_list_nil : (Node.list []).ReadBack := by
  refine readBack_inline (fun _ => ['[', ']', '\n']) (fun _ => rfl) (fun _ => rfl)
    (fun indent tail => ⟨'[', _, rfl, by decide⟩) ?_
  intro indent fuel col k tail rest st hfollows hk hcol
  rw [Node.asRead]
  refine readNode_flow (.inl rfl) hfollows fun n => ⟨col + 2, false, ?_⟩
  simp [readFlow, readFlowItems, Cursor.advance, skip_closing]

/-- The empty map is read where it ends its line. -/
theorem readNode_map_nil (hfollows : Follows tail k rest) :
    readNode (fuel + 1) floor ⟨'\x7b' :: '\x7d' :: '\n' :: tail, col, st⟩ =
      some (.map [], ⟨rest, k, true⟩) := by
  refine readNode_flow (.inr rfl) hfollows fun n => ⟨col + 2, false, ?_⟩
  simp [readFlow, readFlowEntries, Cursor.advance, skip_closing]

/-- The empty map is read back. -/
theorem readBack_map_nil : (Node.map []).ReadBack := by
  refine readBack_inline (fun _ => ['\x7b', '\x7d', '\n']) (fun _ => rfl) (fun _ => rfl)
    (fun indent tail => ⟨'\x7b', _, rfl, by decide⟩) ?_
  intro indent fuel col k tail rest st hfollows hk hcol
  rw [Node.asRead]
  exact readNode_map_nil hfollows

/-- A list is read back if its items are. -/
theorem readBack_list {xs : List Node} (h : ∀ x ∈ xs, x.ReadBack) : (Node.list xs).ReadBack := by
  rcases eq_or_ne xs [] with rfl | hne
  · exact readBack_list_nil
  obtain ⟨x, xs, rfl⟩ := List.exists_cons_of_ne_nil hne
  constructor
  · intro indent fuel col k tail rest st hfollows hk hdash _ hfuel
    obtain ⟨hend, hyes, hbelow⟩ := goesOn_writeItems indent x xs tail
    obtain ⟨fuel, rfl⟩ : ∃ n, fuel = n + 1 := ⟨fuel - 1, by
      rw [Node.writeValue, List.cons_append, List.cons_append, List.length_cons] at hfuel
      omega⟩
    rw [Node.writeValue, List.cons_append, List.cons_append, List.append_assoc,
      readValue_dashes hbelow hend hyes, readItems_writeItems h hne hfollows hk hdash, Node.asRead]
    · rfl
    · simp only [Node.writeValue, List.cons_append, List.length_cons, List.length_append] at hfuel ⊢
      omega
  · intro indent fuel k tail rest hfollows hk hfuel
    obtain ⟨-, hyes, hbelow⟩ := goesOn_writeItems (indent + 2) x xs tail
    obtain ⟨fuel, rfl⟩ : ∃ n, fuel = n + 2 := ⟨fuel - 2, by
      rw [Node.writeItem, List.cons_append, List.length_cons] at hfuel
      omega⟩
    have hne' : Node.writeItems (indent + 2) (x :: xs) ++ tail ≠ [] := by
      obtain ⟨cs, hcs⟩ := Node.writeItems_eq (indent + 2) x xs
      simp [hcs]
    rw [Node.writeItem, List.cons_append, readValue_inline hne' hbelow.begins (Nat.le_succ _),
      readNode_items hyes, readItems_writeItems h hne hfollows (by omega) (by omega), Node.asRead]
    · rfl
    · rw [Node.writeItem, List.cons_append, List.length_cons] at hfuel
      omega

/-- A map whose values are read back one by one is read where its first key stands. -/
theorem readNode_map {es : List (String × Node)} (hkeys : ∀ e ∈ es, IsKey e.1)
    (h : ∀ e ∈ es, e.2.ReadBack) (hne : es ≠ []) (hfollows : Follows tail k rest) (hk : k ≤ indent)
    (hend : rest = [] ∨ k < indent)
    (hfuel : 4 * (Node.writeEntries indent es ++ tail).length + 2 ≤ fuel) :
    readNode fuel floor ⟨Node.writeEntries indent es ++ tail, indent, true⟩ =
      some ((Node.map es).asRead, ⟨rest, k, true⟩) := by
  obtain ⟨e, es, rfl⟩ := List.exists_cons_of_ne_nil hne
  obtain ⟨fuel, rfl⟩ : ∃ n, fuel = n + 1 := ⟨fuel - 1, by omega⟩
  have hread : readEntries fuel indent
      ⟨Node.writeEntries indent (e :: es) ++ tail, indent, true⟩ = _ :=
    readEntries_writeEntries hkeys h hne hfollows hk hend (by omega)
  obtain ⟨cs, hcs, hspace⟩ := Node.writeEntries_eq indent e es
  rw [hcs, List.append_assoc, List.cons_append] at hread ⊢
  rw [readNode_entries (hkeys e List.mem_cons_self) (hspace tail), hread, Node.asRead]
  rfl

/-- A map is read back if its values are, and its keys are bare words. -/
theorem readBack_map {es : List (String × Node)} (hkeys : ∀ e ∈ es, IsKey e.1)
    (h : ∀ e ∈ es, e.2.ReadBack) : (Node.map es).ReadBack := by
  rcases eq_or_ne es [] with rfl | hne
  · exact readBack_map_nil
  obtain ⟨e, es, rfl⟩ := List.exists_cons_of_ne_nil hne
  have hkey := hkeys e List.mem_cons_self
  constructor
  · intro indent fuel col k tail rest st hfollows hk _ _ hfuel
    obtain ⟨hend, -, hbelow⟩ := goesOn_writeEntries (indent + 2) hkey es tail
    obtain ⟨fuel, rfl⟩ : ∃ n, fuel = n + 1 := ⟨fuel - 1, by
      rw [Node.writeValue, List.cons_append, List.cons_append, List.length_cons] at hfuel
      omega⟩
    rw [Node.writeValue, List.cons_append, List.cons_append, List.append_assoc,
      readValue_below hbelow hend (by omega),
      readNode_map hkeys h hne hfollows (by omega) (.inr (by omega))]
    simp only [Node.writeValue, List.cons_append, List.length_cons, List.length_append] at hfuel ⊢
    omega
  · intro indent fuel k tail rest hfollows hk hfuel
    obtain ⟨-, -, hbelow⟩ := goesOn_writeEntries (indent + 2) hkey es tail
    obtain ⟨fuel, rfl⟩ : ∃ n, fuel = n + 1 := ⟨fuel - 1, by
      rw [Node.writeItem, List.cons_append, List.length_cons] at hfuel
      omega⟩
    have hne' : Node.writeEntries (indent + 2) (e :: es) ++ tail ≠ [] := by
      obtain ⟨cs, hcs, -⟩ := Node.writeEntries_eq (indent + 2) e es
      simp [hcs]
    rw [Node.writeItem, List.cons_append, readValue_inline hne' hbelow.begins (Nat.le_succ _),
      readNode_map hkeys h hne hfollows (by omega) (.inr (by omega))]
    rw [Node.writeItem, List.cons_append, List.length_cons] at hfuel
    omega

/-- Well-formed values are read back. -/
theorem Node.WellFormed.readBack {x : Node} (h : x.WellFormed) : x.ReadBack := by
  induction h with
  | word h => exact readBack_word h
  | text s => exact readBack_text s
  | list h ih => exact readBack_list ih
  | map hkeys h ih => exact readBack_map hkeys ih

end PointsTo.Yaml
