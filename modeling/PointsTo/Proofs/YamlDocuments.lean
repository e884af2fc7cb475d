import PointsTo.Proofs.YamlNodes

/-!
# YAML documents are read back

A text is made of printable characters whatever it stands for, so that nothing in it is changed
before it is read.

Main results:

- Theorem {lit}`printable_escape`: characters in double quotes are written with printable ones.
- Theorem {lit}`Node.WellFormed.printable`: so are all values.
- Theorem {lit}`Node.read?_render`: the text of a map stands for the map.
-/

namespace PointsTo.Yaml

variable {c : Char} {cs : List Char} {indent : Nat}

/-! ## Printable characters -/

/-- All characters can be written as they are. -/
def AllPrintable (cs : List Char) : Prop := ∀ c ∈ cs, isPrintable c = true

namespace AllPrintable

/-- No character is printable. -/
theorem nil : AllPrintable [] := by simp [AllPrintable]

/-- Printable texts may follow each other. -/
theorem append {cs ds : List Char} (hcs : AllPrintable cs) (hds : AllPrintable ds) :
    AllPrintable (cs ++ ds) :=
  List.forall_mem_append.2 ⟨hcs, hds⟩

/-- A printable character may come first. -/
theorem cons (hc : isPrintable c = true) (hcs : AllPrintable cs) : AllPrintable (c :: cs) :=
  List.forall_mem_cons.2 ⟨hc, hcs⟩

/-- A margin is printable. -/
theorem margin (n : Nat) : AllPrintable (margin n) := by
  intro c hc
  rw [List.eq_of_mem_replicate hc]
  decide

/-- Indented lines are printable. -/
theorem indentLines (h : AllPrintable cs) (broken : Bool) :
    AllPrintable (indentLines indent broken cs) := by
  induction cs generalizing broken with
  | nil => exact nil
  | cons c cs ih =>
      obtain ⟨hc, hcs⟩ := List.forall_mem_cons.1 h
      rw [Yaml.indentLines]
      refine append ?_ (cons hc (ih hcs _))
      split
      · exact margin indent
      · exact nil

/-- So are doubled quotes. -/
theorem doubleQuotes (h : AllPrintable cs) : AllPrintable (doubleQuotes cs) := by
  induction cs with
  | nil => exact nil
  | cons c cs ih =>
      obtain ⟨hc, hcs⟩ := List.forall_mem_cons.1 h
      rw [Yaml.doubleQuotes]
      split
      · exact cons hc (cons hc (ih hcs))
      · exact cons hc (ih hcs)

end AllPrintable

/-- Hexadecimal digits are printable. -/
theorem printable_toDigits (n : Nat) : AllPrintable ((Nat.toDigits 16 n).map Char.toUpper) := by
  have hdigit : ∀ d < 16, isPrintable d.digitChar.toUpper = true := by decide
  induction n using Nat.strongRecOn with
  | ind n ih =>
    rcases Nat.lt_or_ge n 16 with hlt | hge
    · rw [Nat.toDigits_of_lt_base hlt]
      exact AllPrintable.nil.cons (hdigit n hlt)
    · rw [Nat.toDigits_of_base_le (by decide) hge, List.map_append]
      exact (ih _ (by omega)).append (AllPrintable.nil.cons (hdigit _ (Nat.mod_lt n (by decide))))

/-- So are those of a certain width. -/
theorem printable_hexDigits (width n : Nat) : AllPrintable (hexDigits width n) := by
  refine AllPrintable.append (fun c hc => ?_) (printable_toDigits n)
  rw [List.eq_of_mem_replicate hc]
  decide

/-- Whatever a character is, it is written with printable ones. -/
theorem printable_escape (c : Char) : AllPrintable (escape c) := by
  have hletter : ∀ e ∈ escapes, isPrintable e.2 = true := by decide
  unfold escape
  split
  · rename_i hplain
    simp only [Bool.and_eq_true] at hplain
    exact AllPrintable.nil.cons hplain.1.1.1
  · split
    · rename_i letter hlookup
      obtain ⟨front, back, hescapes, -⟩ := List.lookup_eq_some_iff.1 hlookup
      have hmem : (c, letter) ∈ escapes := by simp [hescapes]
      exact (AllPrintable.nil.cons (hletter _ hmem)).cons (by decide)
    · split
      · exact ((printable_hexDigits _ _).cons (by decide)).cons (by decide)
      · split
        · exact ((printable_hexDigits _ _).cons (by decide)).cons (by decide)
        · exact ((printable_hexDigits _ _).cons (by decide)).cons (by decide)

/-! ## Written values -/

/-- A text is written in printable characters, whatever it contains. -/
theorem printable_writeText (indent : Nat) (s : String) : AllPrintable (writeText indent s) := by
  have hfits := fits_styleOf s
  have hend : AllPrintable ['\n'] := AllPrintable.nil.cons (by decide)
  unfold writeText
  cases hstyle : styleOf s with
  | bare =>
      rw [hstyle] at hfits
      exact AllPrintable.append hfits.1.bareRest.printable hend
  | single =>
      rw [hstyle] at hfits
      have hlines : AllPrintable (writeSingle indent s.toList) := by
        refine AllPrintable.append (AllPrintable.indentLines (AllPrintable.doubleQuotes ?_) _) ?_
        · exact hfits.printable
        · split
          · exact AllPrintable.margin indent
          · exact AllPrintable.nil
      exact (hlines.append (hend.cons (by decide))).cons (by decide)
  | double =>
      have hescaped : AllPrintable (s.toList.flatMap escape) := by
        intro c hc
        obtain ⟨a, -, hca⟩ := List.mem_flatMap.1 hc
        exact printable_escape a c hca
      exact (hescaped.append (hend.cons (by decide))).cons (by decide)
  | block =>
      rw [hstyle] at hfits
      have hindent : AllPrintable (indentHint s.toList) := by
        unfold indentHint
        split
        · exact AllPrintable.nil.cons (by decide)
        · exact AllPrintable.nil
      have hchomp : AllPrintable (endHint s.toList) := by
        obtain ⟨-, -, ⟨-, hhint⟩ | ⟨-, hhint⟩ | ⟨-, hhint⟩⟩ := endHint_cases hfits.1
        · exact hhint ▸ AllPrintable.nil.cons (by decide)
        · exact hhint ▸ AllPrintable.nil
        · exact hhint ▸ AllPrintable.nil.cons (by decide)
      have hlines : AllPrintable (indentLines indent true s.toList) :=
        AllPrintable.indentLines hfits.2 true
      refine AllPrintable.append (((hindent.append hchomp).cons (by decide)).append
        (hlines.cons (by decide))) ?_
      split
      · exact AllPrintable.nil
      · exact hend

/-- Lists are written in printable characters if their items are. -/
theorem printable_writeItems {xs : List Node}
    (h : ∀ x ∈ xs, ∀ indent, AllPrintable (x.writeItem indent)) :
    AllPrintable (Node.writeItems indent xs) := by
  have hdash : isPrintable '-' = true := by decide
  induction xs with
  | nil => exact AllPrintable.nil
  | cons x xs ih =>
      obtain ⟨hx, hxs⟩ := List.forall_mem_cons.1 h
      cases xs with
      | nil => exact (hx indent).cons hdash
      | cons y ys =>
          exact (((hx indent).cons hdash).append (AllPrintable.margin indent)).append (ih hxs)

/-- Maps are if their keys are bare words and their values are written so. -/
theorem printable_writeEntries {es : List (String × Node)} (hkeys : ∀ e ∈ es, IsKey e.1)
    (h : ∀ e ∈ es, ∀ indent, AllPrintable (e.2.writeValue indent)) :
    AllPrintable (Node.writeEntries indent es) := by
  have hcolon : isPrintable ':' = true := by decide
  induction es with
  | nil => exact AllPrintable.nil
  | cons e es ih =>
      obtain ⟨hkey, hkeys⟩ := List.forall_mem_cons.1 hkeys
      obtain ⟨hx, hes⟩ := List.forall_mem_cons.1 h
      have hfirst : AllPrintable (e.1.toList ++ ':' :: e.2.writeValue indent) :=
        AllPrintable.append hkey.bare.bareRest.printable ((hx indent).cons hcolon)
      cases es with
      | nil => exact hfirst
      | cons e' es => exact (hfirst.append (AllPrintable.margin indent)).append (ih hkeys hes)

/-- Well-formed values are written with printable characters. -/
theorem Node.WellFormed.printable {x : Node} (h : x.WellFormed) :
    (∀ indent, AllPrintable (x.writeValue indent)) ∧
      ∀ indent, AllPrintable (x.writeItem indent) := by
  have hspace : isPrintable ' ' = true := by decide
  have hfeed : isPrintable '\n' = true := by decide
  induction h with
  | word h =>
      have hline := AllPrintable.append h.bareRest.printable (AllPrintable.nil.cons hfeed)
      have hw := hline.cons hspace
      exact ⟨fun _ => hw, fun _ => hw⟩
  | text s =>
      exact ⟨fun indent => (printable_writeText _ s).cons hspace,
        fun indent => (printable_writeText _ s).cons hspace⟩
  | @list xs h ih =>
      have hitems : ∀ indent, AllPrintable (Node.writeItems indent xs) :=
        fun _ => printable_writeItems fun x hx => (ih x hx).2
      cases xs with
      | nil =>
          have hempty : AllPrintable [' ', '[', ']', '\n'] :=
            (((AllPrintable.nil.cons hfeed).cons (by decide)).cons (by decide)).cons hspace
          exact ⟨fun _ => hempty, fun _ => hempty⟩
      | cons x xs =>
          exact ⟨fun indent => ((AllPrintable.margin indent).append (hitems _)).cons hfeed,
            fun indent => (hitems _).cons hspace⟩
  | @map es hkeys h ih =>
      have hentries : ∀ indent, AllPrintable (Node.writeEntries indent es) :=
        fun _ => printable_writeEntries hkeys fun e he => (ih e he).1
      cases es with
      | nil =>
          have hempty : AllPrintable [' ', '\x7b', '\x7d', '\n'] :=
            (((AllPrintable.nil.cons hfeed).cons (by decide)).cons (by decide)).cons hspace
          exact ⟨fun _ => hempty, fun _ => hempty⟩
      | cons e es =>
          exact ⟨fun indent => ((AllPrintable.margin _).append (hentries _)).cons hfeed,
            fun indent => (hentries _).cons hspace⟩

/-! ## Texts -/

/-- Printable characters that do not begin like white space are a text as they are. -/
theorem Node.read?_ofList (h : AllPrintable cs) :
    Node.read? (String.ofList cs) = readDocument cs := by
  have hreadable : cs.all isReadable = true :=
    List.all_eq_true.2 fun c hc => isReadable_of_isPrintable (h c hc)
  have hmark : cs.head? ≠ some byteOrderMark := by
    intro hhead
    exact (ne_of_isPrintable (h _ (List.mem_of_head? hhead))).2.2.2 rfl
  unfold Node.read?
  simp only [String.toList_ofList, hreadable, hmark, if_true, if_false, unifyBreaks_of_forall h]

/-- A text that begins with a word is read from there on. -/
theorem readDocument_eq {x : Node} (hfollows : Follows cs 0 cs)
    (hend : (Cursor.mk cs 0 true).atEnd = false)
    (hread : readNode (4 * cs.length + 4) 0 ⟨cs, 0, true⟩ = some (x, ⟨[], 0, true⟩)) :
    readDocument cs = some x := by
  have hmark : (Cursor.mk cs 0 true).isMark = false := by
    rw [Cursor.atEnd, Bool.or_eq_false_iff] at hend
    exact hend.2
  have hstart : documentStart cs = ⟨cs, 0, true⟩ := by
    unfold documentStart
    simp only [Cursor.skip_of_begins hfollows, hmark, Bool.false_and, Bool.false_eq_true, if_false]
  rw [readDocument, hstart]
  simp only [hend, Bool.false_eq_true, if_false, hread, Option.bind_eq_bind, Option.bind_some]
  rfl

/-- The text of a well-formed map stands for this map. -/
theorem Node.read?_render {es : List (String × Node)} (h : (Node.map es).WellFormed) :
    Node.read? (Node.map es).render = some (Node.map es).asRead := by
  obtain _ | _ | _ | ⟨hkeys, hes⟩ := h
  have hprintable : AllPrintable (Node.writeEntries 0 es) :=
    printable_writeEntries hkeys fun e he => (hes e he).printable.1
  have hnone : Follows [] 0 [] := ⟨rfl, nofun, fun _ => rfl⟩
  cases es with
  | nil =>
      have hempty : AllPrintable ['\x7b', '\x7d', '\n'] :=
        ((AllPrintable.nil.cons (by decide)).cons (by decide)).cons (by decide)
      have hbegins : Follows ['\x7b', '\x7d', '\n'] 0 ['\x7b', '\x7d', '\n'] :=
        ⟨rfl, forall_head?_cons (by decide) _, nofun⟩
      rw [Node.asRead]
      exact (Node.read?_ofList hempty).trans
        (readDocument_eq hbegins rfl (readNode_map_nil hnone))
  | cons e es =>
      obtain ⟨hend, -, hbegins⟩ := goesOn_writeEntries 0 (hkeys e List.mem_cons_self) es []
      have hread : readNode (4 * (Node.writeEntries 0 (e :: es) ++ []).length + 4) 0
          ⟨Node.writeEntries 0 (e :: es) ++ [], 0, true⟩ = _ :=
        readNode_map hkeys (fun e he => (hes e he).readBack) (List.cons_ne_nil _ _) hnone
          (Nat.le_refl 0) (.inl rfl) (by omega)
      rw [List.append_nil] at hend hbegins hread
      exact (Node.read?_ofList hprintable).trans (readDocument_eq hbegins hend hread)

end PointsTo.Yaml
