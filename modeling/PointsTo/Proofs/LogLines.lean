import PointsTo.Proofs.Members
import PointsTo.Proofs.Texts

/-!
# What a reflection log says

A line of a log says nothing, reports an entry, or is malformed.  Which of these it is depends on
the line alone, and so the first malformed line is reported whatever stands before it.  Where no
line is malformed, the log holds the entries that the program can resolve, in the order of their
lines.

Main results:

- {lit}`LogEntry.Silent`, {lit}`LogEntry.WrittenAs`, {lit}`LogEntry.Malformed`: lines that say
  nothing, report an entry, or neither.
- Theorems {lit}`LogEntry.parse_eq_none_iff`, {lit}`LogEntry.parse_eq_some_iff`,
  {lit}`LogEntry.exists_parse_eq_error_iff`: what a line is read as.
- {lit}`LogEntry.Resolves`, {lit}`Log.Holds`: what a program makes of the lines of a log.
- Theorem {lit}`Log.parse_texts`: a log that was written is read back.
- Theorem {lit}`LogModel.ofLog_exact`: whole logs.
-/

namespace PointsTo

/-! ## Methods and classes -/

namespace Program

variable {p : Program} {signature name : String} {m : MethodId}

/-- The method is the last one of the program that has the signature. -/
def Signs (p : Program) (signature : String) (m : MethodId) : Prop :=
  ∃ front x back, p.methods.toList = front ++ x :: back ∧ x.signature = signature ∧ x.id = m ∧
    ∀ y ∈ back, y.signature ≠ signature

/-- A method is found by a signature if it is the last one that has this signature. -/
theorem methodBySignature?_eq_some_iff :
    p.methodBySignature? signature = some m ↔ p.Signs signature m := by
  simp only [methodBySignature?, Option.map_eq_some_iff, List.find?_eq_some_iff_append, Signs,
    beq_iff_eq]
  constructor
  · rintro ⟨x, ⟨hx, later, earlier, hsplit, hlater⟩, rfl⟩
    refine ⟨earlier.reverse, x, later.reverse, ?_, hx, rfl, fun y hy => ?_⟩
    · simpa using congrArg List.reverse hsplit
    · simpa using hlater y (List.mem_reverse.1 hy)
  · rintro ⟨front, x, back, hsplit, hx, rfl, hback⟩
    refine ⟨x, ⟨hx, back.reverse, front.reverse, by simp [hsplit], fun y hy => ?_⟩, rfl⟩
    simpa using hback y (List.mem_reverse.1 hy)

/-- The program has a class of the name. -/
theorem exists_class?_iff : (∃ c, p.class? name = some c) ↔ ∃ c ∈ p.classes, c.name = name := by
  rw [← Option.isSome_iff_exists, class?, List.find?_isSome]
  simp

end Program

namespace Reflection

/-- The operation of a log line is the one that is written with this name. -/
theorem Api.ofLogName?_eq_some_iff {name : String} {a : Api} :
    ofLogName? name = some a ↔ a ∈ logged ∧ a.logName = name := by
  constructor
  · intro h
    exact ⟨List.mem_of_find?_eq_some h, by simpa using List.find?_some h⟩
  · rintro ⟨hlogged, rfl⟩
    exact ofLogName?_logName hlogged

namespace LogEntry

variable {raw : String} {e : LogEntry}

/-! ## Lines -/

/-- How the source line of an entry is written: a number of 32 bits, and nothing or minus one for
none. -/
inductive WritesLine : String → Option Nat → Prop
  | empty : WritesLine "" none
  | minusOne : WritesLine "-1" none
  | number {text n} (h : Text.Writes text n) (hn : n < idBound) : WritesLine text (some n)

/-- The number of a line is read as it is written. -/
theorem parseLine_eq_ok_iff {text : String} {line : Option Nat} :
    parseLine text = .ok line ↔ WritesLine text line := by
  unfold parseLine
  constructor
  · intro h
    split at h
    · rename_i hnone
      cases h
      rcases hnone with rfl | rfl
      · exact .empty
      · exact .minusOne
    · split at h
      · rename_i n hn
        cases h
        obtain ⟨hwrites, hlt⟩ := Text.unsigned?_eq_some_iff.1 hn
        exact .number hwrites hlt
      · cases h
  · intro h
    cases h with
    | empty => rfl
    | minusOne => rfl
    | number h hn =>
        -- neither of the texts for none is a row of digits
        have hsome := Text.unsigned?_eq_some_iff.2 ⟨h, hn⟩
        rw [if_neg, hsome]
        rintro (rfl | rfl)
        · revert hsome
          simp [Text.unsigned?, Text.digits?]
        · revert hsome
          simp [Text.unsigned?, Text.digits?, Text.digitsFrom?, Text.digit?]

/-- The text consists of four fields that, when they are trimmed, name a call that logs report, a
target, a caller, and a source line or none. -/
structure WrittenAs (e : LogEntry) (text : String) : Prop where
  logged : e.api ∈ Api.logged
  target : e.target ≠ ""
  caller : e.caller ≠ ""
  fields : ∃ fields line, ";".intercalate fields = text ∧ (∀ f ∈ fields, ';' ∉ f.toList) ∧
    fields.map Text.trim = [e.api.logName, e.target, e.caller, line] ∧ WritesLine line e.line

/-- The line is blank or a comment. -/
def Silent (raw : String) : Prop :=
  Text.trim raw = "" ∨ (Text.trim raw).toList.head? = some '#'

instance (raw : String) : Decidable (Silent raw) := inferInstanceAs (Decidable (_ ∨ _))

/-- The line says something, but not what a line should. -/
def Malformed (raw : String) : Prop := ¬ Silent raw ∧ ∀ e : LogEntry, ¬ e.WrittenAs (Text.trim raw)

/-- The fields of a line are read as an entry exactly if they write it. -/
theorem ofFields_eq_ok_iff {api target caller line : String} :
    ofFields api target caller line = .ok e ↔
      e.api ∈ Api.logged ∧ e.target ≠ "" ∧ e.caller ≠ "" ∧ e.api.logName = api ∧
        e.target = target ∧ e.caller = caller ∧ WritesLine line e.line := by
  obtain ⟨a, t, c, l⟩ := e
  unfold ofFields
  split
  · rename_i hnone
    refine iff_of_false (by simp) ?_
    rintro ⟨hlogged, -, -, rfl, -⟩
    rw [Api.ofLogName?_logName hlogged] at hnone
    cases hnone
  · rename_i found hfound
    obtain ⟨hlogged, rfl⟩ := Api.ofLogName?_eq_some_iff.1 hfound
    split
    · rename_i hempty
      refine iff_of_false (by simp) ?_
      rintro ⟨-, ht, hc, -, rfl, rfl, -⟩
      exact hempty.elim ht hc
    · rename_i hfull
      rw [not_or] at hfull
      simp only [← parseLine_eq_ok_iff]
      constructor
      · intro h
        cases hline : parseLine line with
        | error fault =>
            rw [hline] at h
            cases h
        | ok n =>
            rw [hline] at h
            cases h
            exact ⟨hlogged, hfull.1, hfull.2, rfl, rfl, rfl, rfl⟩
      · rintro ⟨ha, -, -, hname, rfl, rfl, hline⟩
        have hapi := Api.ofLogName?_logName ha
        rw [hname, Api.ofLogName?_logName hlogged] at hapi
        cases hapi
        rw [hline]
        rfl

/-- The names of calls do not begin with a number sign. -/
theorem logName_ne (a : Api) : a.logName ≠ "" ∧ a.logName.toList.head? ≠ some '#' := by
  cases a <;> decide

/-- A line that reports an entry does not begin like a comment, since the name of the call does
not. -/
theorem WrittenAs.not_silent (h : e.WrittenAs (Text.trim raw)) : ¬ Silent raw := by
  obtain ⟨fields, line, hjoin, -, hfields, -⟩ := h.fields
  obtain ⟨api, rest, rfl⟩ := List.exists_cons_of_ne_nil (l := fields) (by
    rintro rfl
    cases hfields)
  obtain ⟨hapi, hrest⟩ := List.cons.inj hfields
  obtain ⟨tail, htail⟩ : ∃ tail, (Text.trim raw).toList = api.toList ++ ';' :: tail := by
    have hne : rest.map String.toList ≠ [] := by
      rintro hnil
      rw [List.map_eq_nil_iff.1 hnil] at hrest
      cases hrest
    rw [← hjoin, String.toList_intercalate, List.map_cons, List.intercalate_cons_of_ne_nil hne]
    exact ⟨_, by rw [List.append_assoc]; rfl⟩
  obtain ⟨hname, hhead⟩ := logName_ne e.api
  rw [← hapi] at hname hhead
  rintro (hempty | hcomment)
  · rw [hempty] at htail
    simp at htail
  · rw [htail] at hcomment
    cases hchars : api.toList with
    | nil =>
        rw [hchars] at hcomment
        simp at hcomment
    | cons c cs =>
        rw [hchars] at hcomment
        obtain rfl : c = '#' := by simpa using hcomment
        obtain ⟨rest, hrest⟩ := Text.exists_trimChars_cons (c := '#') (by decide) cs
        rw [Text.trim, hchars, hrest] at hhead
        simp at hhead

/-- Fields between semicolons are the pieces of the text. -/
theorem writtenAs_iff {text : String} : e.WrittenAs text ↔
    ∃ line, (Text.pieces ';' text).map Text.trim = [e.api.logName, e.target, e.caller, line] ∧
      e.api ∈ Api.logged ∧ e.target ≠ "" ∧ e.caller ≠ "" ∧ WritesLine line e.line := by
  constructor
  · rintro ⟨hlogged, htarget, hcaller, fields, line, hjoin, hfree, hfields, hline⟩
    have hne : fields ≠ [] := by
      rintro rfl
      cases hfields
    have hpieces : Text.pieces ';' text = fields := (Text.pieces_eq_iff hne).2 ⟨hjoin, hfree⟩
    rw [← hpieces] at hfields
    exact ⟨line, hfields, hlogged, htarget, hcaller, hline⟩
  · rintro ⟨line, hfields, hlogged, htarget, hcaller, hline⟩
    have hne : Text.pieces ';' text ≠ [] := by
      intro hnil
      rw [hnil] at hfields
      cases hfields
    obtain ⟨hjoin, hfree⟩ := (Text.pieces_eq_iff hne).1 rfl
    exact ⟨hlogged, htarget, hcaller, _, line, hjoin, hfree, hfields, hline⟩

/-- A silent line is no entry, and no fault either. -/
theorem parse_of_silent (h : Silent raw) : parse raw = .ok none := if_pos h

/-- Lines that say something either have four fields or are refused. -/
theorem parse_cases (h : ¬ Silent raw) :
    (∃ api target caller line,
      (Text.pieces ';' (Text.trim raw)).map Text.trim = [api, target, caller, line] ∧
        parse raw = (ofFields api target caller line).map some) ∨
      (∀ api target caller line,
        (Text.pieces ';' (Text.trim raw)).map Text.trim ≠ [api, target, caller, line]) ∧
        ∃ fault, parse raw = .error fault := by
  unfold Silent at h
  unfold parse
  rw [if_neg h]
  split
  · rename_i api target caller line hfields
    exact .inl ⟨api, target, caller, line, hfields, rfl⟩
  · rename_i hother
    exact .inr ⟨hother, _, rfl⟩

/-- Wrapping a value keeps the outcome. -/
theorem map_some_eq_ok_iff {ε α : Type} {x : Except ε α} {a : α} :
    x.map some = .ok (some a) ↔ x = .ok a := by
  cases x <;> simp [Except.map]

/-- A line is read as an entry exactly if it is written as that entry. -/
theorem parse_eq_some_iff : parse raw = .ok (some e) ↔ e.WrittenAs (Text.trim raw) := by
  by_cases hsilent : Silent raw
  · rw [parse_of_silent hsilent]
    exact iff_of_false (by simp) fun h => h.not_silent hsilent
  rw [writtenAs_iff]
  rcases parse_cases hsilent with ⟨api, target, caller, line, hfields, hparse⟩ | ⟨hother, _, hparse⟩
  · rw [hparse, hfields, map_some_eq_ok_iff, ofFields_eq_ok_iff]
    constructor
    · rintro ⟨hlogged, htarget, hcaller, rfl, rfl, rfl, hline⟩
      exact ⟨line, rfl, hlogged, htarget, hcaller, hline⟩
    · rintro ⟨_, heq, hlogged, htarget, hcaller, hline⟩
      cases heq
      exact ⟨hlogged, htarget, hcaller, rfl, rfl, rfl, hline⟩
  · rw [hparse]
    refine iff_of_false (by simp) ?_
    rintro ⟨line, hfields, -⟩
    exact hother _ _ _ _ hfields

/-- A line says nothing exactly if it is silent. -/
theorem parse_eq_none_iff : parse raw = .ok none ↔ Silent raw := by
  refine ⟨fun h => ?_, parse_of_silent⟩
  by_contra hsilent
  rcases parse_cases hsilent with ⟨api, target, caller, line, -, hparse⟩ | ⟨-, _, hparse⟩
  · rw [hparse] at h
    cases hfields : ofFields api target caller line <;> rw [hfields] at h <;> cases h
  · rw [hparse] at h
    cases h

/-- Exactly the malformed lines are refused. -/
theorem exists_parse_eq_error_iff : (∃ fault, parse raw = .error fault) ↔ Malformed raw := by
  unfold Malformed
  rw [← parse_eq_none_iff]
  simp only [← parse_eq_some_iff]
  cases parse raw with
  | error fault => simp
  | ok e? => cases e? <;> simp

instance (raw : String) : Decidable (Malformed raw) :=
  decidable_of_iff ((parse raw).isOk = false) (by
    rw [← exists_parse_eq_error_iff]
    cases parse raw <;> simp [Except.isOk, Except.toBool])

/-- The entry that a line reports, if it reports one. -/
def read? (raw : String) : Option LogEntry := (parse raw).toOption.join

/-- What is read of a line is the entry that the line is written as. -/
theorem read?_eq_some_iff : read? raw = some e ↔ e.WrittenAs (Text.trim raw) := by
  rw [← parse_eq_some_iff, read?]
  cases parse raw with
  | error fault => simp [Except.toOption]
  | ok e? => cases e? <;> simp [Except.toOption]

/-- Only what is left of a line when it is trimmed counts. -/
theorem parse_congr {raw' : String} (h : Text.trim raw = Text.trim raw') :
    parse raw = parse raw' := by
  unfold parse
  rw [h]

/-! ## Lines that are written -/

/-- A text that can be a field: not empty, trimmed, on one line and without a separator. -/
structure Plain (s : String) : Prop where
  ne_empty : s ≠ ""
  trimmed : Text.Trimmed s.toList
  separator : ';' ∉ s.toList
  lineEnd : '\n' ∉ s.toList

/-- An entry that a line can report. -/
structure Writable (e : LogEntry) : Prop where
  logged : e.api ∈ Api.logged
  target : Plain e.target
  caller : Plain e.caller
  line : ∀ n ∈ e.line, n < idBound

/-- The names of operations are plain. -/
theorem plain_logName (a : Api) : Plain a.logName := by
  cases a <;> exact ⟨by decide, by decide, by decide, by decide⟩

/-- The last field of the line that reports an entry. -/
def lineText (e : LogEntry) : String :=
  match e.line with
  | some n => toString n
  | none => ""

/-- The text of an entry is made of its four fields. -/
theorem text_eq (e : LogEntry) :
    e.text = ";".intercalate [e.api.logName, e.target, e.caller, e.lineText] := by
  obtain ⟨api, target, caller, line⟩ := e
  rw [← String.toList_inj, String.toList_intercalate]
  cases line <;> simp [text, lineText, List.intercalate]

/-- The number of a line is written in digits. -/
theorem isDigit_of_mem_lineText {c : Char} (hc : c ∈ e.lineText.toList) : c.isDigit = true := by
  unfold lineText at hc
  split at hc
  · rename_i n _
    rw [Nat.toString_eq_ofList_toDigits, String.toList_ofList] at hc
    exact Nat.isDigit_of_mem_toDigits (by decide) (by decide) hc
  · simp at hc

/-- A line number is written as it will be read. -/
theorem Writable.writesLine (h : e.Writable) : WritesLine e.lineText e.line := by
  unfold lineText
  split
  · rename_i n hn
    rw [hn]
    exact .number (Text.writes_toString n) (h.line n (by simp [hn]))
  · rename_i hn
    rw [hn]
    exact .empty

/-- It begins and ends without white space. -/
theorem trimmed_lineText (e : LogEntry) : Text.Trimmed e.lineText.toList where
  head _ hc := Text.isBlank_of_isDigit (isDigit_of_mem_lineText (List.mem_of_mem_head? hc))
  last _ hc := Text.isBlank_of_isDigit (isDigit_of_mem_lineText (List.mem_of_getLast? hc))

/-- A line that reports an entry begins with the name of a call, and ends with a digit or with a
semicolon. -/
theorem trim_text (e : LogEntry) : Text.trim e.text = e.text := by
  have hname := plain_logName e.api
  have hend : Text.Trimmed (';' :: e.lineText.toList) := by
    cases hline : e.lineText.toList with
    | nil => decide
    | cons c cs =>
        have hlast := (trimmed_lineText e).last
        rw [hline] at hlast
        refine ⟨fun d hd => ?_, by rwa [List.getLast?_cons_cons]⟩
        obtain rfl : ';' = d := Option.mem_some.1 hd
        decide
  have hsplit : e.text.toList = e.api.logName.toList ++
      (';' :: e.target.toList ++ ';' :: e.caller.toList) ++ ';' :: e.lineText.toList := by
    simp [text_eq]
  refine Text.trim_of_trimmed ?_
  rw [hsplit]
  exact hname.trimmed.append hend (by simpa using hname.ne_empty) (List.cons_ne_nil _ _) _

/-- What was written is read back. -/
theorem Writable.writtenAs_text (h : e.Writable) : e.WrittenAs e.text where
  logged := h.logged
  target := h.target.ne_empty
  caller := h.caller.ne_empty
  fields := by
    refine ⟨[e.api.logName, e.target, e.caller, e.lineText], e.lineText, (text_eq e).symm, ?_, ?_,
      h.writesLine⟩
    · simp only [List.forall_mem_cons, List.not_mem_nil, false_imp_iff, implies_true, and_true]
      exact ⟨(plain_logName e.api).separator, h.target.separator, h.caller.separator,
        fun hc => absurd (isDigit_of_mem_lineText hc) (by decide)⟩
    · simp only [List.map_cons, List.map_nil, Text.trim_of_trimmed (plain_logName e.api).trimmed,
        Text.trim_of_trimmed h.target.trimmed, Text.trim_of_trimmed h.caller.trimmed,
        Text.trim_of_trimmed (trimmed_lineText e)]

/-- The text of an entry takes one line. -/
theorem Writable.lineEnd_text (h : e.Writable) : '\n' ∉ e.text.toList := by
  have hname := (plain_logName e.api).lineEnd
  have hline : '\n' ∉ e.lineText.toList := fun hc =>
    absurd (isDigit_of_mem_lineText hc) (by decide)
  simp [text_eq, hname, h.target.lineEnd, h.caller.lineEnd, hline]

/-- An entry is read back from its text. -/
theorem Writable.parse_text (h : e.Writable) : parse e.text = .ok (some e) := by
  rw [parse_eq_some_iff, trim_text]
  exact h.writtenAs_text

end LogEntry

namespace Log

variable {n : Nat} {raw : String} {rows : List String}

/-! ## Whole logs -/

/-- The number of a row does not matter to what is read from it. -/
theorem parseNumbered_of_ok {e? : Option LogEntry} (h : LogEntry.parse raw = .ok e?) (n : Nat) :
    parseNumbered n raw = .ok e? := by
  rw [parseNumbered, h]
  rfl

/-- A fault of a row is reported with the number of the row. -/
theorem parseNumbered_of_error {fault : LogFault} (h : LogEntry.parse raw = .error fault)
    (n : Nat) : parseNumbered n raw = .error (.logLine n fault.message) := by
  rw [parseNumbered, h]
  rfl

/-- A row that is not malformed is read. -/
theorem parse_of_not_malformed (h : ¬ LogEntry.Malformed raw) :
    LogEntry.parse raw = .ok (LogEntry.read? raw) := by
  rw [LogEntry.read?]
  cases hparse : LogEntry.parse raw with
  | error fault => exact absurd (LogEntry.exists_parse_eq_error_iff.1 ⟨fault, hparse⟩) h
  | ok e? => rfl

/-- The entry of such a row comes before those of the rows that follow. -/
theorem parseFrom_cons_of_not_malformed (h : ¬ LogEntry.Malformed raw) (n : Nat)
    (rows : List String) : parseFrom n (raw :: rows) =
      (parseFrom (n + 1) rows).map fun entries => (LogEntry.read? raw).toList ++ entries := by
  rw [parseFrom, parseNumbered_of_ok (parse_of_not_malformed h)]
  cases parseFrom (n + 1) rows <;> rfl

/-- Without malformed lines a log holds what its lines report. -/
theorem parseFrom_of_forall (h : ∀ raw ∈ rows, ¬ LogEntry.Malformed raw) (n : Nat) :
    parseFrom n rows = .ok (rows.filterMap LogEntry.read?) := by
  induction rows generalizing n with
  | nil => rfl
  | cons raw rows ih =>
      obtain ⟨hraw, hrows⟩ := List.forall_mem_cons.1 h
      rw [parseFrom_cons_of_not_malformed hraw, ih hrows, List.filterMap_cons]
      cases LogEntry.read? raw <;> rfl

/-- The first malformed line is reported, whatever comes before and after it. -/
theorem parseFrom_of_malformed {before : List String}
    (hbefore : ∀ line ∈ before, ¬ LogEntry.Malformed line) (hraw : LogEntry.Malformed raw)
    (n : Nat) (after : List String) : ∃ fault, LogEntry.parse raw = .error fault ∧
      parseFrom n (before ++ raw :: after) =
        .error (.logLine (n + before.length) fault.message) := by
  obtain ⟨fault, hfault⟩ := LogEntry.exists_parse_eq_error_iff.2 hraw
  refine ⟨fault, hfault, ?_⟩
  induction before generalizing n with
  | nil =>
      rw [List.nil_append, parseFrom, parseNumbered_of_error hfault]
      rfl
  | cons line before ih =>
      obtain ⟨hline, hbefore⟩ := List.forall_mem_cons.1 hbefore
      rw [List.cons_append, parseFrom_cons_of_not_malformed hline, ih hbefore, List.length_cons,
        Nat.add_assoc, Nat.add_comm 1]
      rfl

/-! ### Line ends -/

/-- White space around the rows does not matter. -/
theorem parseFrom_congr {rows rows' : List String} (h : rows.map Text.trim = rows'.map Text.trim)
    (n : Nat) : parseFrom n rows = parseFrom n rows' := by
  induction rows generalizing n rows' with
  | nil =>
      obtain rfl := List.map_eq_nil_iff.1 h.symm
      rfl
  | cons raw rows ih =>
      obtain ⟨raw', rows', rfl, hraw, hrows⟩ := List.map_eq_cons_iff.1 h.symm
      rw [parseFrom, parseFrom, parseNumbered, parseNumbered, LogEntry.parse_congr hraw.symm,
        ih hrows.symm]

/-- A silent row at the end adds nothing. -/
theorem parseFrom_concat_silent (h : LogEntry.Silent raw) (n : Nat) (rows : List String) :
    parseFrom n (rows ++ [raw]) = parseFrom n rows := by
  induction rows generalizing n with
  | nil =>
      have hread : LogEntry.read? raw = none := by
        rw [LogEntry.read?, LogEntry.parse_of_silent h]
        rfl
      rw [List.nil_append, parseFrom_cons_of_not_malformed fun hmalformed => hmalformed.1 h, hread]
      rfl
  | cons line rows ih => rw [List.cons_append, parseFrom, ih, parseFrom]

/-- A log is read line by line. -/
theorem parse_eq (content : String) : parse content = parseFrom 1 (Text.lines content) := by
  rcases Text.pieces_eq_lines content with hrows | hrows
  · exact parseFrom_congr hrows 1
  · -- behind the last line end there is an empty piece
    have hempty : Text.trim "" = "" := by decide
    have hrows' : (Text.pieces '\n' content).map Text.trim =
        (Text.lines content ++ [""]).map Text.trim := by simp [hrows, hempty]
    rw [parse, parseFrom_congr hrows', parseFrom_concat_silent (.inl hempty)]

/-- A log that was written is read back. -/
theorem parse_texts {es : List LogEntry} (h : ∀ e ∈ es, e.Writable) :
    parse ("\n".intercalate (es.map LogEntry.text)) = .ok es := by
  rcases eq_or_ne es [] with rfl | hne
  · rfl
  have hpieces : Text.pieces '\n' ("\n".intercalate (es.map LogEntry.text)) =
      es.map LogEntry.text := by
    refine (Text.pieces_eq_iff (by simpa using hne)).2 ⟨rfl, fun text htext => ?_⟩
    obtain ⟨e, he, rfl⟩ := List.mem_map.1 htext
    exact (h e he).lineEnd_text
  have hparse : ∀ e ∈ es, LogEntry.parse e.text = .ok (some e) := fun e he => (h e he).parse_text
  have hwell : ∀ text ∈ es.map LogEntry.text, ¬ LogEntry.Malformed text := by
    intro text htext hmalformed
    obtain ⟨e, he, rfl⟩ := List.mem_map.1 htext
    obtain ⟨fault, hfault⟩ := LogEntry.exists_parse_eq_error_iff.2 hmalformed
    rw [hparse e he] at hfault
    cases hfault
  have hread : ∀ e ∈ es, (LogEntry.read? ∘ LogEntry.text) e = some e := fun e he => by
    rw [Function.comp_apply, LogEntry.read?, hparse e he]
    rfl
  rw [parse, hpieces, parseFrom_of_forall hwell, List.filterMap_map, List.filterMap_congr hread,
    List.filterMap_some]

end Log

/-! ## What a program makes of a log -/

section Program

variable {p : Program} {e : LogEntry} {r : ResolvedEntry} {content : String}

/-- What an entry is about: a class of the program if the call names a class, else the method with
a signature. -/
inductive LogEntry.Targets (p : Program) (e : LogEntry) : LogTarget → Prop
  | cls (hapi : e.api = .forName ∨ e.api = .classNewInstance)
      (h : ∃ c ∈ p.classes, c.name = e.target) : Targets p e (.cls e.target)
  | method (hapi : e.api = .constructorNewInstance ∨ e.api = .methodInvoke) {m}
      (h : p.Signs e.target m) : Targets p e (.method m)

/-- The program has the caller and the target of an entry. -/
structure LogEntry.Resolves (p : Program) (e : LogEntry) (r : ResolvedEntry) : Prop where
  caller : p.Signs e.caller r.caller
  api : r.api = e.api
  target : e.Targets p r.target
  line : r.line = e.line

/-- The target of an entry is what it names for its operation. -/
theorem LogModel.target?_eq_some_iff (hlogged : e.api ∈ Api.logged) {t : LogTarget} :
    target? p e = some t ↔ e.Targets p t := by
  have hcls : ∀ t, (p.class? e.target).map (fun c => LogTarget.cls c.name) = some t ↔
      (∃ c ∈ p.classes, c.name = e.target) ∧ t = .cls e.target := by
    intro t
    rw [← Program.exists_class?_iff, Option.map_eq_some_iff]
    constructor
    · rintro ⟨c, hc, rfl⟩
      exact ⟨⟨c, hc⟩, by rw [Program.class?_name hc]⟩
    · rintro ⟨⟨c, hc⟩, rfl⟩
      exact ⟨c, hc, by rw [Program.class?_name hc]⟩
  have hmethod : ∀ t, (p.methodBySignature? e.target).map LogTarget.method = some t ↔
      ∃ m, p.Signs e.target m ∧ t = .method m := by
    intro t
    simp only [Option.map_eq_some_iff, Program.methodBySignature?_eq_some_iff, eq_comm (b := t)]
  unfold target?
  cases hapi : e.api with
  | forName | classNewInstance =>
      rw [hcls]
      constructor
      · rintro ⟨h, rfl⟩
        exact .cls (by simp [hapi]) h
      · intro h
        cases h with
        | cls _ h => exact ⟨h, rfl⟩
        | method hmethod _ => simp [hapi] at hmethod
  | constructorNewInstance | methodInvoke =>
      rw [hmethod]
      constructor
      · rintro ⟨m, h, rfl⟩
        exact .method (by simp [hapi]) h
      · intro h
        cases h with
        | cls hcls _ => simp [hapi] at hcls
        | method _ h => exact ⟨_, h, rfl⟩
  | _ => simp [hapi, Api.logged] at hlogged

/-- An entry is resolved exactly if its caller and its target are known. -/
theorem LogModel.resolved?_eq_some_iff (hlogged : e.api ∈ Api.logged) :
    resolved? p e = some r ↔ e.Resolves p r := by
  obtain ⟨caller, api, target, line⟩ := r
  unfold resolved?
  simp only [bind, Option.bind_eq_some_iff, Program.methodBySignature?_eq_some_iff,
    target?_eq_some_iff hlogged, pure, Option.some.injEq, ResolvedEntry.mk.injEq]
  constructor
  · rintro ⟨_, hcaller, _, htarget, rfl, rfl, rfl, rfl⟩
    exact ⟨hcaller, rfl, htarget, rfl⟩
  · rintro ⟨hcaller, rfl, htarget, rfl⟩
    exact ⟨_, hcaller, _, htarget, rfl, rfl, rfl, rfl⟩

/-- The entries of a calling method in the order of their lines: exactly those that some line
reports and the program resolves. -/
def Log.Holds (p : Program) (caller : MethodId) (rows : List String) (es : List ResolvedEntry) :
    Prop :=
  ∃ numbered : List (Nat × ResolvedEntry), numbered.map Prod.snd = es ∧
    numbered.Pairwise (fun x y => x.1 < y.1) ∧
    ∀ n r, (n, r) ∈ numbered ↔ ∃ (raw : String) (e : LogEntry), rows[n]? = some raw ∧
      e.WrittenAs (Text.trim raw) ∧ e.Resolves p r ∧ r.caller = caller

/-- The entries of a log whose calls are in a method. -/
def LogModel.entriesOf (m : LogModel) (caller : MethodId) : List ResolvedEntry :=
  m.entries.filter fun e => decide (e.caller = caller)

/-- What is picked from a list can be numbered by the positions that it comes from. -/
theorem exists_numbered_filterMap {α β : Type} (f : α → Option β) (l : List α) :
    ∃ numbered : List (Nat × β), numbered.map Prod.snd = l.filterMap f ∧
      numbered.Pairwise (fun x y => x.1 < y.1) ∧
      ∀ n b, (n, b) ∈ numbered ↔ ∃ a, l[n]? = some a ∧ f a = some b := by
  refine ⟨l.zipIdx.filterMap fun x => (f x.1).map fun b => (x.2, b), ?_, ?_, fun n b => ?_⟩
  · conv_rhs => rw [← List.zipIdx_map_fst 0 l, List.filterMap_map]
    simp only [List.map_filterMap, Option.map_map, Function.comp_def, Option.map_id']
  · have hidx : l.zipIdx.Pairwise fun x y => x.2 < y.2 := by
      rw [← List.pairwise_map (f := Prod.snd) (R := (· < ·)), List.zipIdx_map_snd]
      exact List.pairwise_lt_range'
    refine hidx.filterMap _ fun x y hxy a ha b hb => ?_
    obtain ⟨_, -, rfl⟩ := Option.map_eq_some_iff.1 ha
    obtain ⟨_, -, rfl⟩ := Option.map_eq_some_iff.1 hb
    exact hxy
  · rw [List.mem_filterMap]
    simp only [Prod.exists, List.mem_zipIdx_iff_getElem?, Option.map_eq_some_iff, Prod.mk.injEq]
    constructor
    · rintro ⟨a, _, ha, _, hb, rfl, rfl⟩
      exact ⟨a, ha, hb⟩
    · rintro ⟨a, ha, hb⟩
      exact ⟨a, n, ha, b, hb, rfl, rfl⟩

/-- What a model makes of a line for the calls in a method. -/
theorem LogModel.read_eq_some_iff {caller : MethodId} {raw : String} :
    ((LogEntry.read? raw).bind (resolved? p)).filter (fun r => decide (r.caller = caller)) =
        some r ↔
      ∃ e : LogEntry, e.WrittenAs (Text.trim raw) ∧ e.Resolves p r ∧ r.caller = caller := by
  simp only [Option.filter_eq_some_iff, Option.bind_eq_some_iff, LogEntry.read?_eq_some_iff,
    decide_eq_true_eq]
  constructor
  · rintro ⟨⟨e, hread, hresolved⟩, hcaller⟩
    exact ⟨e, hread, (resolved?_eq_some_iff hread.logged).1 hresolved, hcaller⟩
  · rintro ⟨e, hread, hresolves, hcaller⟩
    exact ⟨⟨e, hread, (resolved?_eq_some_iff hread.logged).2 hresolves⟩, hcaller⟩

/-- Of lines that are not malformed, a model holds those entries that the program resolves. -/
theorem LogModel.holds_of_ofLog {m : LogModel} {rows : List String}
    (h : m.entries = (rows.filterMap LogEntry.read?).filterMap (resolved? p)) (caller : MethodId) :
    Log.Holds p caller rows (m.entriesOf caller) := by
  obtain ⟨numbered, hnumbered, hsorted, hmem⟩ := exists_numbered_filterMap (fun raw =>
    ((LogEntry.read? raw).bind (resolved? p)).filter fun r => decide (r.caller = caller)) rows
  refine ⟨numbered, ?_, hsorted, fun n r => ?_⟩
  · rw [hnumbered, entriesOf, h, List.filterMap_filterMap, List.filter_filterMap]
  · simp only [hmem, read_eq_some_iff, exists_and_left]

/-- The first malformed line of a log is reported with its number, whatever the program makes of the
lines before it.  If there is none, the model holds for each calling method the entries that the
program resolves.  An entry that was written is read back. -/
theorem LogModel.ofLog_exact (p : Program) (content : String) :
    (∀ before raw after, Text.lines content = before ++ raw :: after → LogEntry.Malformed raw →
      (∀ line ∈ before, ¬ LogEntry.Malformed line) →
        ∃ fault, LogEntry.parse raw = .error fault ∧
          ofLog p content = .error (.logLine (before.length + 1) fault.message)) ∧
    ((∀ line ∈ Text.lines content, ¬ LogEntry.Malformed line) →
      ∃ m, ofLog p content = .ok m ∧
        ∀ caller, Log.Holds p caller (Text.lines content) (m.entriesOf caller)) ∧
    ∀ e : LogEntry, e.Writable → LogEntry.parse e.text = .ok (some e) := by
  refine ⟨fun before raw after hlines hraw hbefore => ?_, fun h => ?_, fun e he => he.parse_text⟩
  · obtain ⟨fault, hfault, hparse⟩ := Log.parseFrom_of_malformed hbefore hraw 1 after
    refine ⟨fault, hfault, ?_⟩
    rw [ofLog, Log.parse_eq, hlines, hparse, Nat.add_comm]
    rfl
  · refine ⟨{ entries := (Text.lines content |>.filterMap LogEntry.read?).filterMap (resolved? p) },
      ?_, holds_of_ofLog rfl⟩
    rw [ofLog, Log.parse_eq, Log.parseFrom_of_forall h]
    rfl

/-- A comment, an entry for a caller that is not in the empty program, and two malformed lines. -/
def LogModel.brokenLog : String :=
  "# run 1\nClass.forName;A;<Main: void main()>;5\n ClassForName;A \nMethod.invoke;;;x"

theorem LogModel.ofLog_exact_broken :
    ofLog ({} : Program) brokenLog = .error (.logLine 3 "expected 4 fields, found 2") := by
  obtain ⟨fault, hfault, hlog⟩ := (ofLog_exact {} brokenLog).1
    ["# run 1", "Class.forName;A;<Main: void main()>;5"] " ClassForName;A " ["Method.invoke;;;x"]
    (by decide) (by decide) (by decide)
  have hcount : LogEntry.parse " ClassForName;A " = .error (.fieldCount 2) := rfl
  cases hfault.symm.trans hcount
  exact hlog

end Program

end Reflection

end PointsTo
