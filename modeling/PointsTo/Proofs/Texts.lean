import Mathlib.Data.List.DropRight
import PointsTo.Text.Blank
import PointsTo.Text.Decimal

/-!
# What texts consist of

Texts are trimmed, cut at separators and read as numbers.  This file says what comes of that in
terms of the texts alone: what is left of a text, which pieces it consists of, which lines it has
and which number it is.

Main results:

- {lit}`Trimmed`, and theorem {lit}`trim_of_trimmed`: texts that are trimmed already.
- Theorem {lit}`pieces_eq_iff`: the pieces of a text are the texts without a separator that make it
  up when they are joined.
- {lit}`lines`: the lines of a text, and theorem {lit}`pieces_eq_lines`: they are the pieces between
  the line feeds, but for what is blank at their ends.
- {lit}`Writes`, and theorem {lit}`unsigned?_eq_some_iff`: the numbers that are read.
-/

namespace PointsTo.Text

variable {sep c : Char} {cs : List Char} {s : String}

/-! ## Blanks at the ends -/

/-- The characters neither begin nor end with a blank. -/
structure Trimmed (cs : List Char) : Prop where
  head : ∀ c ∈ cs.head?, isBlank c = false
  last : ∀ c ∈ cs.getLast?, isBlank c = false

/-- Whether a text is trimmed can be seen from its ends. -/
theorem trimmed_iff : Trimmed cs ↔
    (cs.head?.all fun c => !isBlank c) = true ∧ (cs.getLast?.all fun c => !isBlank c) = true := by
  simp only [Option.all_eq_true, Bool.not_eq_true']
  exact ⟨fun h => ⟨h.head, h.last⟩, fun h => ⟨h.1, h.2⟩⟩

instance (cs : List Char) : Decidable (Trimmed cs) := decidable_of_iff _ trimmed_iff.symm

/-- Trimming drops white space in front, and behind. -/
theorem trimChars_eq (cs : List Char) :
    trimChars cs = (cs.dropWhile isBlank).rdropWhile isBlank := rfl

/-- A trimmed text stays as it is. -/
theorem trimChars_of_trimmed (h : Trimmed cs) : trimChars cs = cs := by
  have hfront : cs.dropWhile isBlank = cs := by
    rw [List.dropWhile_eq_self_iff]
    intro hpos
    have hhead := h.head cs[0] (by simp [List.head?_eq_getElem?, List.getElem?_eq_getElem hpos])
    simp [hhead]
  rw [trimChars_eq, hfront, List.rdropWhile_eq_self_iff]
  intro hne
  simp [h.last _ (List.getLast?_eq_some_getLast hne)]

/-- So does a trimmed string. -/
theorem trim_of_trimmed (h : Trimmed s.toList) : trim s = s := by
  rw [trim, trimChars_of_trimmed h, String.ofList_toList]

/-- The numbers of digits are between those of zero and of nine. -/
theorem toNat_of_isDigit (h : c.isDigit = true) : 48 ≤ c.toNat ∧ c.toNat ≤ 57 := by
  simpa [Char.isDigit, UInt32.le_iff_toNat_le] using h

/-- A digit is no white space. -/
theorem isBlank_of_isDigit (h : c.isDigit = true) : isBlank c = false := by
  obtain ⟨hlow, hhigh⟩ := toNat_of_isDigit h
  simp only [isBlank, Bool.or_eq_false_iff, Bool.and_eq_false_iff, decide_eq_false_iff_not,
    beq_eq_false_iff_ne]
  omega

/-- Of a text that is put together, only the first and the last part are at the ends. -/
theorem Trimmed.append {ds : List Char} (hcs : Trimmed cs) (hds : Trimmed ds) (hne : cs ≠ [])
    (hne' : ds ≠ []) (mid : List Char) : Trimmed (cs ++ mid ++ ds) where
  head c hc := hcs.head c (by
    rwa [List.append_assoc, List.head?_append_of_ne_nil _ hne] at hc)
  last c hc := hds.last c (by rwa [List.getLast?_append_of_ne_nil _ hne'] at hc)

/-- A first character that is not blank is kept. -/
theorem exists_trimChars_cons (hc : isBlank c = false) (cs : List Char) :
    ∃ rest, trimChars (c :: cs) = c :: rest := by
  have hsplit : trimChars (c :: cs) ++ (c :: cs).rtakeWhile isBlank = c :: cs := by
    rw [trimChars_eq, List.dropWhile_cons_of_neg (by simp [hc])]
    exact List.rdropWhile_append_rtakeWhile
  cases htrim : trimChars (c :: cs) with
  | cons d rest =>
      rw [htrim, List.cons_append] at hsplit
      exact ⟨rest, by rw [(List.cons.inj hsplit).1]⟩
  | nil =>
      rw [trimChars_eq, List.dropWhile_cons_of_neg (by simp [hc]),
        List.rdropWhile_eq_nil_iff] at htrim
      simp [hc] at htrim

/-- A blank at the end makes no difference. -/
theorem trimChars_concat (hc : isBlank c = true) (cs : List Char) :
    trimChars (cs ++ [c]) = trimChars cs := by
  rw [trimChars_eq, trimChars_eq, List.dropWhile_append]
  split
  · rename_i hempty
    rw [List.isEmpty_iff.1 hempty, List.dropWhile_cons_of_pos hc]
    rfl
  · exact List.rdropWhile_concat_pos _ _ _ hc

/-! ## Pieces -/

/-- A text is split as lists are. -/
theorem splitAt_eq_splitOn (sep : Char) (cs : List Char) : splitAt sep cs = cs.splitOn sep := by
  induction cs with
  | nil => rw [splitAt, List.splitOn_nil]
  | cons c cs ih =>
      rw [splitAt, ih, List.splitOn_cons_eq_if_modifyHead]
      simp only [beq_iff_eq]
      split
      · rfl
      · split <;> simp_all

/-- The pieces of a text are the texts without a separator that make it up when they are joined. -/
theorem pieces_eq_iff {ps : List String} (hne : ps ≠ []) : pieces sep s = ps ↔
    (String.singleton sep).intercalate ps = s ∧ ∀ p ∈ ps, sep ∉ p.toList := by
  have hinj : Function.Injective (List.map String.toList) :=
    List.map_injective_iff.2 fun _ _ => String.toList_inj.1
  have hpieces : (pieces sep s).map String.toList = s.toList.splitOn sep := by
    rw [pieces, splitAt_eq_splitOn, List.map_map]
    simp
  have hjoin : ((String.singleton sep).intercalate ps).toList =
      [sep].intercalate (ps.map String.toList) := by
    rw [String.toList_intercalate, String.toList_singleton]
  rw [← hinj.eq_iff, hpieces, ← String.toList_inj, hjoin]
  constructor
  · intro h
    refine ⟨by rw [← h, List.intercalate_splitOn], fun p hp => ?_⟩
    have hmem : p.toList ∈ splitAt sep s.toList := by
      rw [splitAt_eq_splitOn, h]
      exact List.mem_map_of_mem hp
    exact not_mem_of_mem_splitAt hmem
  · rintro ⟨hjoined, hfree⟩
    rw [← hjoined]
    refine List.splitOn_intercalate sep ?_ (by simpa using hne)
    simpa using hfree

/-! ## Lines -/

/-- A line without the carriage return that belongs to its end. -/
def withoutReturn (cs : List Char) : List Char :=
  if cs.getLast? = some '\r' then cs.dropLast else cs

/-- The lines of a text.  A line ends with a line feed, before which a carriage return may stand;
the last line need not end, but then it is not empty. -/
def lines (s : String) : List String :=
  let rows := splitAt '\n' s.toList
  (rows.dropLast.map withoutReturn ++ (rows.getLast?.filter fun row => !row.isEmpty).toList).map
    String.ofList

/-- A return at the end of a line is trimmed off. -/
theorem trimChars_withoutReturn (cs : List Char) : trimChars (withoutReturn cs) = trimChars cs := by
  unfold withoutReturn
  split
  · rename_i hlast
    have hsplit : cs = cs.dropLast ++ ['\r'] := (List.dropLast_append_getLast? _ hlast).symm
    rw [hsplit, List.dropLast_concat, trimChars_concat (by decide)]
  · rfl

/-- Trimmed lines are the trimmed pieces between the line feeds, but for an empty one behind the
last of these. -/
theorem pieces_eq_lines (s : String) :
    (pieces '\n' s).map trim = (lines s).map trim ∨
      (pieces '\n' s).map trim = (lines s).map trim ++ [""] := by
  have htrim : ∀ rows : List (List Char), (rows.map String.ofList).map trim =
      rows.map fun row => String.ofList (trimChars row) := by simp [trim]
  obtain ⟨front, last, hrows⟩ : ∃ front last, splitAt '\n' s.toList = front ++ [last] :=
    ⟨_, _, (List.dropLast_append_getLast (splitAt_ne_nil '\n' s.toList)).symm⟩
  have hfront : (front.map withoutReturn).map (fun row => String.ofList (trimChars row)) =
      front.map fun row => String.ofList (trimChars row) := by
    simp [trimChars_withoutReturn]
  simp only [pieces, lines, hrows, htrim, List.dropLast_concat, List.getLast?_concat,
    List.map_append, hfront, Option.filter_some]
  cases last with
  | nil => exact .inr (by simp [trimChars])
  | cons c cs => exact .inl (by simp)

/-! ## Numbers -/

/-- A digit is read as its value. -/
theorem digit?_eq_some_iff {d : Nat} :
    digit? c = some d ↔ c.isDigit = true ∧ c.toNat - '0'.toNat = d := by
  unfold digit?
  split <;> simp_all

/-- Digits are read one after the other. -/
theorem digitsFrom?_eq_some_iff {acc n : Nat} : digitsFrom? acc cs = some n ↔
    (∀ d ∈ cs, d.isDigit = true) ∧ Nat.ofDigitChars 10 cs acc = n := by
  induction cs generalizing acc with
  | nil => simp [digitsFrom?]
  | cons c cs ih =>
      simp only [digitsFrom?, Option.bind_eq_some_iff, digit?_eq_some_iff, ih,
        Nat.ofDigitChars_cons, Nat.mul_comm 10, List.forall_mem_cons]
      constructor
      · rintro ⟨_, ⟨hc, rfl⟩, hcs, hn⟩
        exact ⟨⟨hc, hcs⟩, hn⟩
      · rintro ⟨⟨hc, hcs⟩, hn⟩
        exact ⟨_, ⟨hc, rfl⟩, hcs, hn⟩

/-- A number is read from one digit or more. -/
theorem digits?_eq_some_iff {n : Nat} : digits? cs = some n ↔
    cs ≠ [] ∧ (∀ d ∈ cs, d.isDigit = true) ∧ Nat.ofDigitChars 10 cs 0 = n := by
  cases cs with
  | nil => simp [digits?]
  | cons c cs => simp only [digits?, digitsFrom?_eq_some_iff, ne_eq, reduceCtorEq,
      not_false_eq_true, true_and]

/-- A row of digits that stands for a number; a plus sign may stand before it. -/
def Writes (s : String) (n : Nat) : Prop :=
  ∃ ds, (s.toList = ds ∨ s.toList = '+' :: ds) ∧ ds ≠ [] ∧ (∀ d ∈ ds, d.isDigit = true) ∧
    Nat.ofDigitChars 10 ds 0 = n

/-- A number is written in decimal digits. -/
theorem writes_toString (n : Nat) : Writes (toString n) n := by
  have hdigits : (toString n).toList = Nat.toDigits 10 n := by
    rw [Nat.toString_eq_ofList_toDigits, String.toList_ofList]
  refine ⟨_, .inl hdigits, Nat.toDigits_ne_nil, fun d hd => ?_, Nat.ofDigitChars_ten_toDigits⟩
  exact Nat.isDigit_of_mem_toDigits (by decide) (by decide) hd

/-- Exactly the numbers below the bound are read. -/
theorem unsigned?_eq_some_iff {bound n : Nat} :
    unsigned? bound s = some n ↔ Writes s n ∧ n < bound := by
  simp only [unsigned?, Option.filter_eq_some_iff, digits?_eq_some_iff, decide_eq_true_eq]
  refine and_congr_left fun _ => ?_
  split
  · rename_i cs hplus
    constructor
    · rintro ⟨hne, hdigits, hn⟩
      exact ⟨cs, .inr hplus, hne, hdigits, hn⟩
    · rintro ⟨ds, hs | hs, hne, hdigits, hn⟩
      · -- a plus sign is no digit
        rw [hplus] at hs
        subst hs
        exact absurd (hdigits '+' List.mem_cons_self) (by decide)
      · obtain rfl : cs = ds := (List.cons.inj (hplus.symm.trans hs)).2
        exact ⟨hne, hdigits, hn⟩
  · rename_i hnone
    constructor
    · rintro ⟨hne, hdigits, hn⟩
      exact ⟨_, .inl rfl, hne, hdigits, hn⟩
    · rintro ⟨ds, rfl | hs, hne, hdigits, hn⟩
      · exact ⟨hne, hdigits, hn⟩
      · exact absurd hs (hnone ds)

end PointsTo.Text
