import PointsTo.Proofs.YamlQuotes

/-!
# Blocks of lines of written YAML

A text with several lines is written line by line, each indented.  What is written says how the
block ends, and how far it is indented if its first line does not show that.

Main results:

- {lit}`Layout`: the lines that a text is written as.
- Theorem {lit}`readBlock?_writeBlock`: a block of lines is read back.
-/

namespace PointsTo.Yaml

variable {c : Char} {cs tail rest written : List Char} {indent k fuel : Nat}

/-! ## Lines -/

/-- The lines that a text is written as: lines that are not empty are indented, and the last one
ends in any case. -/
inductive Layout (indent : Nat) : List Char → List Char → Prop
  | nil : Layout indent [] []
  | last {l} (hne : l ≠ []) (hl : ∀ c ∈ l, isBreak c = false) :
      Layout indent l (margin indent ++ (l ++ ['\n']))
  | empty {b cs written} (hb : isBreak b = true) (h : Layout indent cs written) :
      Layout indent (b :: cs) (b :: written)
  | line {l b cs written} (hne : l ≠ []) (hl : ∀ c ∈ l, isBreak c = false) (hb : isBreak b = true)
      (h : Layout indent cs written) :
      Layout indent (l ++ b :: cs) (margin indent ++ (l ++ b :: written))

/-- Within a line nothing is indented. -/
theorem indentLines_unbroken {l : List Char} (hl : ∀ c ∈ l, isBreak c = false) (cs : List Char) :
    indentLines indent false (l ++ cs) = l ++ indentLines indent false cs := by
  induction l with
  | nil => rfl
  | cons c l ih =>
      obtain ⟨hc, hl⟩ := List.forall_mem_cons.1 hl
      simp [indentLines, hc, ih hl]

/-- The end of the last line, if the text does not have it. -/
def lineEnd (cs : List Char) : List Char :=
  if cs = [] ∨ cs.getLast?.any isBreak = true then [] else ['\n']

/-- The line end of a text depends on its end only. -/
theorem lineEnd_append {b : Char} (hb : isBreak b = true) (front cs : List Char) :
    lineEnd (front ++ b :: cs) = lineEnd cs := by
  cases cs with
  | nil => simp [lineEnd, hb]
  | cons c cs =>
      rw [lineEnd, lineEnd, List.getLast?_append_of_ne_nil _ (List.cons_ne_nil b _),
        List.getLast?_cons_cons]
      simp

/-- An indented text is laid out as it should be. -/
theorem layout_indentLines (indent : Nat) (cs : List Char) :
    Layout indent cs (indentLines indent true cs ++ lineEnd cs) := by
  induction hn : cs.length using Nat.strongRecOn generalizing cs with
  | ind n ih =>
    obtain ⟨l, more, rfl, hl, hmore⟩ := exists_run (fun c => !isBreak c) cs
    have hl' : ∀ c ∈ l, isBreak c = false := by simpa using hl
    have hindent : l ≠ [] → indentLines indent true (l ++ more) =
        margin indent ++ (l ++ indentLines indent false more) := by
      intro hne
      rw [indentLines_true (by simp [hne]) _, indentLines_unbroken hl']
      rw [List.head?_append_of_ne_nil _ hne]
      exact fun c hc => hl' c (List.mem_of_mem_head? hc)
    cases more with
    | nil =>
        rw [List.append_nil] at hindent ⊢
        rcases eq_or_ne l [] with rfl | hne
        · exact .nil
        · have hlast : lineEnd l = ['\n'] := by
            simp [lineEnd, hne, List.getLast?_eq_some_getLast hne, hl' _ (List.getLast_mem hne)]
          rw [hindent hne, hlast, indentLines, List.append_nil, List.append_assoc]
          exact .last hne hl'
    | cons b more =>
        have hb : isBreak b = true := by simpa using hmore b rfl
        have hless : more.length < n := by
          rw [← hn, List.length_append, List.length_cons]
          omega
        have hrest := ih more.length hless more rfl
        rw [lineEnd_append hb]
        rcases eq_or_ne l [] with rfl | hne
        · simpa [indentLines, hb] using hrest.empty hb
        · have hbreak :
              indentLines indent false (b :: more) = b :: indentLines indent true more := by
            simp [indentLines, hb]
          rw [hindent hne, hbreak, List.append_assoc, List.append_assoc, List.cons_append]
          exact hrest.line hne hl' hb

/-! ## Reading lines -/

/-- Spaces up to the limit are passed over. -/
theorem marginFrom_margin {limit : Option Nat} {col : Nat} (n : Nat)
    (hlimit : ∀ l ∈ limit, col + n ≤ l) (widest : Nat) (bs cs : List Char) :
    marginFrom limit col widest bs (margin n ++ cs) = marginFrom limit (col + n) widest bs cs := by
  induction n generalizing col with
  | zero => rfl
  | succ n ih =>
      have hinside : (limit.all fun l => decide (col < l)) = true := by
        cases limit with
        | none => rfl
        | some l => simpa using Nat.lt_of_lt_of_le (by omega) (hlimit l rfl)
      rw [margin_succ, List.cons_append, marginFrom]
      simp only [hinside, and_self, if_true]
      rw [ih (fun l hl => by have := hlimit l hl; omega), Nat.add_right_comm, Nat.add_assoc]

/-- At the limit a line begins, whatever its first character is. -/
theorem marginFrom_limit (hc : isBreak c = false) (widest : Nat) (bs cs : List Char) :
    marginFrom (some indent) indent widest bs (c :: cs) =
      some ⟨bs, max widest indent, indent, c :: cs⟩ := by
  simp [marginFrom, hc]

/-- A break in a margin begins the next line of it. -/
theorem marginFrom_break {limit : Option Nat} {col : Nat} (hc : isBreak c = true) (widest : Nat)
    (bs cs : List Char) : marginFrom limit col widest bs (c :: cs) =
      marginFrom limit 0 (max widest col) (bs ++ [c]) cs := by
  have hspace : c ≠ ' ' := by
    rintro rfl
    exact absurd hc (by decide)
  have htab : c ≠ '\t' := by
    rintro rfl
    exact absurd hc (by decide)
  simp [marginFrom, hc, hspace, htab]

/-- What follows the block ends it. -/
theorem marginFrom_follows (h : Follows tail k rest) (hk : k ≤ indent) (widest : Nat)
    (bs : List Char) : marginFrom (some indent) 0 widest bs tail =
      some ⟨bs, max widest k, k, rest⟩ := by
  rw [h.text, marginFrom_margin k (by simpa using hk), Nat.zero_add]
  cases rest with
  | nil => rfl
  | cons c cs =>
      obtain ⟨hblank, hbreak, -⟩ := h.begins c rfl
      have hspaces : c ≠ ' ' ∧ c ≠ '\t' := by simpa [isBlank] using hblank
      simp [marginFrom, hbreak, hspaces.1, hspaces.2]

/-- How a block ends suits the rest of its text, given the empty lines before it. -/
def Chomp.Suits (chomp : Chomp) (bs cs : List Char) : Prop :=
  match chomp with
  | .strip => ∃ c ∈ cs.getLast?, isBreak c = false
  | .clip => bs = [] ∧ cs = [] ∨
      (∀ c ∈ cs.getLast?, isBreak c = true) ∧ ∃ c ∈ cs.dropLast.getLast?, isBreak c = false
  | .keep => ∀ c ∈ cs.getLast?, isBreak c = true

namespace Chomp.Suits

variable {chomp : Chomp} {bs l : List Char} {b : Char}

/-- At the end of the text only some breaks are left. -/
theorem nil_cases (h : chomp.Suits bs []) : chomp = .keep ∨ chomp = .clip ∧ bs = [] := by
  cases chomp with
  | strip => simp [Suits] at h
  | clip => exact .inr ⟨rfl, by simpa [Suits] using h⟩
  | keep => exact .inl rfl

/-- Without a line end at its end a text is stripped of the one that is written. -/
theorem eq_strip (h : chomp.Suits bs cs) (hne : cs ≠ []) (hcs : ∀ c ∈ cs, isBreak c = false) :
    chomp = .strip := by
  have hlast : ¬ ∀ c ∈ cs.getLast?, isBreak c = true := fun hall => by
    have hbreak := hall _ (List.getLast?_eq_some_getLast hne)
    simp [hcs _ (List.getLast_mem hne)] at hbreak
  cases chomp with
  | strip => rfl
  | clip => exact absurd (h.resolve_left fun hnil => hne hnil.2).1 hlast
  | keep => exact absurd h hlast

/-- A line more, which has a line end before it or is empty. -/
theorem of_append (h : chomp.Suits bs (l ++ b :: cs)) (hb : isBreak b = true) {bs' : List Char}
    (hbs : l ≠ [] → bs' = []) : chomp.Suits bs' cs := by
  rcases List.eq_nil_or_concat' cs with rfl | ⟨front, x, rfl⟩
  · cases chomp with
    | strip => simp [Suits, hb] at h
    | clip =>
        refine .inl ⟨hbs ?_, rfl⟩
        rintro rfl
        simp [Suits] at h
    | keep => simp [Suits]
  · have hconcat : l ++ b :: (front ++ [x]) = (l ++ b :: front) ++ [x] := by simp
    rw [hconcat] at h
    cases chomp with
    | strip =>
        simp only [Suits, List.getLast?_concat] at h ⊢
        exact h
    | clip =>
        obtain ⟨hx, c, hc, hbreak⟩ := h.resolve_left (by simp)
        rw [List.dropLast_concat, List.getLast?_append_of_ne_nil _ (List.cons_ne_nil b front)] at hc
        rw [List.getLast?_concat] at hx
        refine .inr ⟨by rwa [List.getLast?_concat], c, ?_, hbreak⟩
        rw [List.dropLast_concat]
        cases front with
        | nil =>
            obtain rfl : b = c := by simpa using hc
            simp [hb] at hbreak
        | cons d front => rwa [List.getLast?_cons_cons] at hc
    | keep =>
        simp only [Suits, List.getLast?_concat] at h ⊢
        exact h

end Chomp.Suits

/-- A line that is not empty is read up to its end. -/
theorem blockLines_line {chomp : Chomp} {l bs ending more : List Char} {b : Char} {widest : Nat}
    {next : Margin} {last : Cursor} (hl : ∀ c ∈ l, isBreak c = false)
    (hb : isBreak b = true) (hnext : marginFrom (some indent) 0 0 [] rest = some next)
    (hmore : blockLines indent chomp fuel [b] next = some (more, last)) :
    blockLines indent chomp (fuel + 1) ending ⟨bs, widest, indent, l ++ b :: rest⟩ =
      some (ending ++ bs ++ l ++ more, last) := by
  have hl' : ∀ c ∈ l, (!isBreak c) = true := by simpa using hl
  have htake : (l ++ b :: rest).takeWhile (fun c => !isBreak c) = l := by
    simp [List.takeWhile_append_of_pos hl', hb]
  have hdrop : (l ++ b :: rest).dropWhile (fun c => !isBreak c) = b :: rest := by
    simp [List.dropWhile_append_of_pos hl', hb]
  unfold blockLines
  rw [if_pos ⟨rfl, by simp⟩]
  simp only [htake, hdrop, List.drop_succ_cons, List.drop_zero, List.take_succ_cons, List.take_zero,
    hnext, hmore, Option.bind_eq_bind, Option.bind_some, pure]

/-- A margin ends with the first character of a line. -/
theorem marginFrom_line {l : List Char} (hne : l ≠ []) (hl : ∀ c ∈ l, isBreak c = false)
    (widest : Nat) (bs cs : List Char) :
    marginFrom (some indent) 0 widest bs (margin indent ++ (l ++ cs)) =
      some ⟨bs, max widest indent, indent, l ++ cs⟩ := by
  obtain ⟨c, l, rfl⟩ := List.exists_cons_of_ne_nil hne
  rw [marginFrom_margin indent (by simp), Nat.zero_add, List.cons_append,
    marginFrom_limit (hl c List.mem_cons_self)]

/-- Behind the last line there are only line ends, which are kept, kept in part or left out. -/
theorem blockLines_follows (hk : k < indent) {chomp : Chomp} {ending bs kept : List Char}
    (hkept : chomp = .keep ∧ kept = ending ++ bs ∨ chomp = .clip ∧ kept = ending ∨
      chomp = .strip ∧ kept = []) (fuel widest : Nat) :
    blockLines indent chomp (fuel + 1) ending ⟨bs, widest, k, rest⟩ =
      some (kept, ⟨rest, k, true⟩) := by
  unfold blockLines
  rw [if_neg fun hline => Nat.ne_of_lt hk hline.1]
  rcases hkept with ⟨rfl, rfl⟩ | ⟨rfl, rfl⟩ | ⟨rfl, rfl⟩ <;> rfl

/-- The lines of a block are read up to what follows it. -/
theorem blockLines_layout (hfollows : Follows tail k rest) (hk : k < indent) {chomp : Chomp}
    (h : Layout indent cs written) : ∀ (fuel widest : Nat) (ending bs : List Char),
      written.length < fuel → chomp.Suits bs cs →
        ∃ m, marginFrom (some indent) 0 widest bs (written ++ tail) = some m ∧
          blockLines indent chomp fuel ending m =
            some (ending ++ bs ++ cs, ⟨rest, k, true⟩) := by
  induction h with
  | nil =>
      intro fuel widest ending bs hfuel hsuits
      refine ⟨_, marginFrom_follows hfollows (Nat.le_of_lt hk) widest bs, ?_⟩
      cases fuel with
      | zero => exact absurd hfuel (Nat.not_lt_zero _)
      | succ fuel =>
          refine blockLines_follows hk ?_ _ _
          rcases hsuits.nil_cases with rfl | ⟨rfl, rfl⟩
          · exact .inl ⟨rfl, by simp⟩
          · exact .inr (.inl ⟨rfl, by simp⟩)
  | last hne hl =>
      rename_i l
      intro fuel widest ending bs hfuel hsuits
      obtain ⟨fuel, rfl⟩ : ∃ n, fuel = n + 2 := by
        refine ⟨fuel - 2, ?_⟩
        have hpos := List.length_pos_of_ne_nil hne
        simp only [List.length_append, List.length_singleton] at hfuel
        omega
      have hnext := marginFrom_follows hfollows (Nat.le_of_lt hk) 0 []
      have hmore : blockLines indent chomp (fuel + 1) ['\n'] ⟨[], max 0 k, k, rest⟩ = _ :=
        blockLines_follows hk (.inr (.inr ⟨hsuits.eq_strip hne hl, rfl⟩)) fuel (max 0 k)
      refine ⟨⟨bs, max widest indent, indent, l ++ '\n' :: tail⟩, ?_, ?_⟩
      · rw [← marginFrom_line hne hl]
        simp
      · rw [blockLines_line hl rfl hnext hmore]
        simp
  | empty hb h ih =>
      rename_i b cs written
      intro fuel widest ending bs hfuel hsuits
      have hsuits' : chomp.Suits (bs ++ [b]) cs :=
        Chomp.Suits.of_append (l := []) hsuits hb fun hne => absurd rfl hne
      obtain ⟨m, hm, hlines⟩ :=
        ih fuel (max widest 0) ending (bs ++ [b]) (Nat.lt_of_succ_lt hfuel) hsuits'
      refine ⟨m, ?_, by simpa using hlines⟩
      rw [List.cons_append, marginFrom_break hb]
      exact hm
  | line hne hl hb h ih =>
      rename_i l b cs written
      intro fuel widest ending bs hfuel hsuits
      cases fuel with
      | zero => exact absurd hfuel (Nat.not_lt_zero _)
      | succ fuel =>
          have hless : written.length < fuel := by
            simp only [List.length_append, List.length_cons] at hfuel
            omega
          obtain ⟨m, hm, hlines⟩ := ih fuel 0 [b] [] hless (hsuits.of_append hb fun _ => rfl)
          refine ⟨⟨bs, max widest indent, indent, l ++ b :: (written ++ tail)⟩, ?_, ?_⟩
          · rw [← marginFrom_line hne hl]
            simp
          · rw [blockLines_line hl hb hm hlines]
            simp

/-! ## Whole blocks -/

/-- The hint for the end of a text suits the text. -/
theorem endHint_cases (hne : cs ≠ []) : ∃ chomp : Chomp, chomp.Suits [] cs ∧
    (chomp = .keep ∧ endHint cs = ['+'] ∨ chomp = .clip ∧ endHint cs = [] ∨
      chomp = .strip ∧ endHint cs = ['-']) := by
  obtain ⟨front, a, rfl⟩ := (List.eq_nil_or_concat' cs).resolve_left hne
  cases ha : isBreak a with
  | false =>
      refine ⟨.strip, ⟨a, List.getLast?_concat, ha⟩, .inr (.inr ⟨rfl, ?_⟩)⟩
      rcases List.eq_nil_or_concat' front with rfl | ⟨front, b, rfl⟩ <;> simp [endHint, ha]
  | true =>
      have hlast : ∀ c ∈ (front ++ [a]).getLast?, isBreak c = true := by
        simpa only [List.getLast?_concat, Option.mem_def, Option.some.injEq, forall_eq'] using ha
      rcases List.eq_nil_or_concat' front with rfl | ⟨front, b, rfl⟩
      · exact ⟨.keep, hlast, .inl ⟨rfl, by simp [endHint, ha]⟩⟩
      · cases hb : isBreak b with
        | true => exact ⟨.keep, hlast, .inl ⟨rfl, by simp [endHint, ha, hb]⟩⟩
        | false =>
            refine ⟨.clip, .inr ⟨hlast, b, ?_, hb⟩, .inr (.inl ⟨rfl, by simp [endHint, ha, hb]⟩)⟩
            rw [List.dropLast_concat]
            exact List.getLast?_concat

/-- Nothing behind the bar means a single line end. -/
theorem blockHeader?_lineFeed (rest : List Char) :
    blockHeader? ('\n' :: rest) = some (.clip, none, '\n' :: rest) := by
  unfold blockHeader?
  split
  case h_1 heq => cases heq
  case h_2 heq => cases heq
  case h_3 heq =>
    cases heq
    rfl
  case h_4 heq =>
    cases heq
    rfl
  case h_5 => rfl

/-- What is written behind the bar of a block is read back. -/
theorem blockHeader?_hints (hne : cs ≠ []) (rest : List Char) :
    ∃ chomp : Chomp, chomp.Suits [] cs ∧
      blockHeader? (indentHint cs ++ endHint cs ++ '\n' :: rest) =
        some (chomp, if indentHint cs = [] then none else some 2, '\n' :: rest) := by
  obtain ⟨chomp, hsuits, hend⟩ := endHint_cases hne
  refine ⟨chomp, hsuits, ?_⟩
  have hindent : indentHint cs = ['2'] ∨ indentHint cs = [] := by
    unfold indentHint
    split
    · exact .inl rfl
    · exact .inr rfl
  rcases hindent with hindent | hindent <;>
    rcases hend with ⟨rfl, hend⟩ | ⟨rfl, hend⟩ | ⟨rfl, hend⟩ <;> rw [hindent, hend]
  case inr.inr.inl => exact blockHeader?_lineFeed rest
  all_goals rfl

/-- The first line of a block without a hint shows how far it is indented. -/
theorem marginFrom_none (hc : isPrintable c = true) (hspace : isSpace c = false)
    (hbreak : isBreak c = false) (cs : List Char) :
    marginFrom none 0 0 [] (margin indent ++ c :: cs) =
      some ⟨[], max 0 indent, indent, c :: cs⟩ := by
  have hspaces : c ≠ ' ' ∧ c ≠ '\t' := ⟨by simpa [isSpace] using hspace, (ne_of_isPrintable hc).1⟩
  rw [marginFrom_margin indent (by simp), Nat.zero_add]
  simp [marginFrom, hbreak, hspaces.1, hspaces.2]

/-- How far a block is indented, if that is stated. -/
def statedIndent (indent : Nat) (cs : List Char) : Option Nat :=
  if indentHint cs = [] then none else some indent

/-- With or without a hint the first line is read in the same way. -/
theorem marginFrom_statedIndent {m : Margin} (hne : cs ≠ [])
    (hprintable : ∀ c ∈ cs, isPrintable c = true)
    (hm : marginFrom (some indent) 0 0 [] (indentLines indent true cs ++ rest) = some m) :
    marginFrom (statedIndent indent cs) 0 0 [] (indentLines indent true cs ++ rest) = some m ∧
      ∀ n ≤ indent, (statedIndent indent cs).getD (max m.widest n) = indent := by
  unfold statedIndent
  split
  · rename_i hhint
    obtain ⟨c, cs, rfl⟩ := List.exists_cons_of_ne_nil hne
    have hc : isSpace c = false ∧ isBreak c = false := by
      simpa [indentHint] using hhint
    have hfirst : indentLines indent true (c :: cs) ++ rest =
        margin indent ++ c :: (indentLines indent false cs ++ rest) := by
      simp [indentLines, hc.2, margin]
    rw [hfirst] at hm ⊢
    rw [marginFrom_margin _ (by simp), Nat.zero_add, marginFrom_limit hc.2] at hm
    cases hm
    refine ⟨marginFrom_none (hprintable c List.mem_cons_self) hc.1 hc.2 _, fun n hn => ?_⟩
    show max (max 0 indent) n = indent
    omega
  · exact ⟨hm, fun _ _ => rfl⟩

/-- A block of lines is read back. -/
theorem readBlock?_writeBlock {floor col : Nat} {st : Bool} (hfollows : Follows tail k rest)
    (hfloor : k < floor) (hne : cs ≠ []) (hprintable : ∀ c ∈ cs, isPrintable c = true) :
    readBlock? floor ⟨writeBlock (floor + 1) cs ++ tail, col, st⟩ =
      some (.text (String.ofList cs), ⟨rest, k, true⟩) := by
  have hend : lineEnd cs = if cs.getLast?.any isBreak then [] else ['\n'] := by simp [lineEnd, hne]
  let body := indentLines (floor + 1) true cs ++ (lineEnd cs ++ tail)
  have hbody : writeBlock (floor + 1) cs ++ tail =
      '|' :: (indentHint cs ++ endHint cs ++ '\n' :: body) := by
    simp [writeBlock, body, hend]
  obtain ⟨chomp, hsuits, hheader⟩ := blockHeader?_hints hne body
  obtain ⟨m, hm, hlines⟩ := blockLines_layout hfollows (Nat.lt_succ_of_lt hfloor)
    (layout_indentLines (floor + 1) cs) (body.length + 1) 0 [] []
    (by simp only [body, List.length_append]; omega) hsuits
  rw [List.append_assoc] at hm
  obtain ⟨hmargin, hindent⟩ := marginFrom_statedIndent hne hprintable hm
  have hline : restOfLine? ('\n' :: body) = some body := rfl
  have hlimit : (if indentHint cs = [] then none else some 2).map (fun d => floor - 1 + d) =
      statedIndent (floor + 1) cs := by
    unfold statedIndent
    split
    · rfl
    · rw [Option.map_some]
      congr 1
      omega
  have hwidest : (statedIndent (floor + 1) cs).getD (max m.widest (max floor 1)) = floor + 1 :=
    hindent _ (by omega)
  rw [hbody, readBlock?]
  simp only [List.drop_succ_cons, List.drop_zero, hheader, hline, Option.bind_eq_bind,
    Option.bind_some, hlimit, body, hmargin, hwidest, hlines, pure, List.nil_append]

end PointsTo.Yaml
