import Mathlib.Algebra.Group.Nat.Defs
import Mathlib.Data.List.Basic
import PointsTo.Yaml.Style

/-!
# Characters and numbers of written YAML

What is written consists of printable characters only.  Numbers are written in decimal digits, and
characters that cannot stand for themselves by their number in radix sixteen; both are read back.

Main results:

- Theorem {lit}`unifyBreaks_of_forall`: printable characters are read as they are.
- Theorem {lit}`digitsIn?_toDigits`: the digits of a number are read back.
- Theorem {lit}`Word.unsigned?_toString`: numbers are read back as words.
-/

namespace PointsTo.Yaml

variable {c : Char} {cs : List Char} {radix n : Nat}

/-! ## Printable characters -/

/-- What is printable may be read. -/
theorem isReadable_of_isPrintable (h : isPrintable c = true) : isReadable c = true := by
  rw [isPrintable, Bool.and_eq_true] at h
  exact h.1

/-- What is printable is none of the characters that only quotes can carry. -/
theorem ne_of_isPrintable (h : isPrintable c = true) :
    c ≠ '\t' ∧ c ≠ '\r' ∧ c ≠ '\u0085' ∧ c ≠ byteOrderMark := by
  rw [isPrintable, Bool.and_eq_true] at h
  simpa [and_assoc] using h.2

/-- Of the blanks only the space is printable. -/
theorem isBlank_eq_isSpace (h : isPrintable c = true) : isBlank c = isSpace c := by
  simp [isBlank, isSpace, (ne_of_isPrintable h).1]

/-- Printable characters are read as they are. -/
theorem unifyBreaks_of_forall (h : ∀ c ∈ cs, isPrintable c = true) : unifyBreaks cs = cs := by
  induction cs with
  | nil => rfl
  | cons c cs ih =>
      obtain ⟨hc, hcs⟩ := List.forall_mem_cons.1 h
      obtain ⟨-, hreturn, hnext, -⟩ := ne_of_isPrintable hc
      rw [unifyBreaks, ih hcs]
      all_goals simp_all

/-! ## Digits -/

/-- The digit for a value is read as the value, in either case. -/
theorem digitIn?_digitChar {d : Nat} (hd : d < radix) (hradix : radix ≤ 16) :
    digitIn? radix d.digitChar = some d ∧ digitIn? radix d.digitChar.toUpper = some d := by
  have hall : ∀ radix ≤ 16, ∀ d < radix,
      digitIn? radix d.digitChar = some d ∧ digitIn? radix d.digitChar.toUpper = some d := by
    decide
  exact hall radix hradix d hd

/-- Some digits are read from the left. -/
theorem digitsIn?_of_ne_nil (hne : cs ≠ []) : digitsIn? radix cs =
    cs.foldlM (fun n c => (digitIn? radix c).map fun d => n * radix + d) 0 := by
  cases cs with
  | nil => exact absurd rfl hne
  | cons c cs => rfl

/-- The digits of a number are read back, in any way in which digits are. -/
theorem digitsIn?_map_toDigits {f : Char → Char} (hradix : 1 < radix)
    (hf : ∀ d < radix, digitIn? radix (f d.digitChar) = some d) (n : Nat) :
    digitsIn? radix ((Nat.toDigits radix n).map f) = some n := by
  have hne : ∀ n, (Nat.toDigits radix n).map f ≠ [] := by simp [Nat.toDigits_ne_nil]
  induction n using Nat.strongRecOn with
  | ind n ih =>
    rcases Nat.lt_or_ge n radix with hlt | hge
    · rw [digitsIn?_of_ne_nil (hne n), Nat.toDigits_of_lt_base hlt]
      simp [hf n hlt]
    · have hquot : digitsIn? radix ((Nat.toDigits radix (n / radix)).map f) =
          some (n / radix) := ih _ (Nat.div_lt_self (by omega) hradix)
      rw [digitsIn?_of_ne_nil (hne _)] at hquot
      rw [digitsIn?_of_ne_nil (hne n), Nat.toDigits_of_base_le hradix hge, List.map_append,
        List.foldlM_append, hquot]
      simp [hf _ (Nat.mod_lt n (by omega)), Nat.div_add_mod']

/-- Digits are read as the number that they were written for. -/
theorem digitsIn?_toDigits (hradix : 1 < radix) (hle : radix ≤ 16) (n : Nat) :
    digitsIn? radix (Nat.toDigits radix n) = some n := by
  simpa using digitsIn?_map_toDigits (f := id) hradix
    (fun d hd => (digitIn?_digitChar hd hle).1) n

/-- Zeros before a number make no difference. -/
theorem digitsIn?_replicate_append (k : Nat) (hne : cs ≠ []) (hradix : 0 < radix) :
    digitsIn? radix (List.replicate k '0' ++ cs) = digitsIn? radix cs := by
  have hzero : digitIn? radix '0' = some 0 := by simp [digitIn?, hradix]
  rw [digitsIn?_of_ne_nil hne, digitsIn?_of_ne_nil (by simp [hne])]
  induction k with
  | zero => rfl
  | succ k ih => simpa [List.replicate_succ, hzero] using ih

/-- Hexadecimal digits have their width if the number is small enough. -/
theorem length_hexDigits {width : Nat} (hn : n < 16 ^ width) (hwidth : 0 < width) :
    (hexDigits width n).length = width := by
  have hle : (Nat.toDigits 16 n).length ≤ width :=
    (Nat.length_toDigits_le_iff (by decide) hwidth).2 hn
  simp [hexDigits]
  omega

/-- Hexadecimal digits are read as the number that they were written for. -/
theorem digitsIn?_hexDigits (width n : Nat) : digitsIn? 16 (hexDigits width n) = some n := by
  rw [hexDigits, digitsIn?_replicate_append _ (by simp [Nat.toDigits_ne_nil]) (by decide)]
  exact digitsIn?_map_toDigits (by decide) (fun d hd => (digitIn?_digitChar hd (by decide)).2) n

/-! ## Numbers -/

/-- The ten digits are the characters that count as digits. -/
theorem mem_digits (h : c.isDigit = true) : c ∈ "0123456789".toList := by
  have hrange : 48 ≤ c.toNat ∧ c.toNat < 58 := by
    simpa [Char.isDigit, UInt32.le_iff_toNat_le, Nat.lt_succ_iff] using h
  have hall : ∀ n < 58, 48 ≤ n → Char.ofNat n ∈ "0123456789".toList := by decide
  simpa using hall c.toNat hrange.2 hrange.1

/-- No idle zero is written. -/
theorem head?_toDigits (hn : 0 < n) : (Nat.toDigits 10 n).head? ≠ some '0' := by
  induction n using Nat.strongRecOn with
  | ind n ih =>
    rcases Nat.lt_or_ge n 10 with hlt | hge
    · rw [Nat.toDigits_of_lt_base hlt]
      simp only [List.head?_cons, ne_eq, Option.some.injEq, Nat.digitChar_eq_zero]
      omega
    · rw [Nat.toDigits_of_base_le (by decide) hge,
        List.head?_append_of_ne_nil _ Nat.toDigits_ne_nil]
      exact ih (n / 10) (by omega) (by omega)

namespace Word

/-- Decimal digits are the magnitude of their number. -/
theorem magnitude?_toDigits (n : Nat) : magnitude? (Nat.toDigits 10 n) = some n := by
  rcases Nat.eq_zero_or_pos n with rfl | hn
  · rfl
  have hhead := head?_toDigits hn
  have hidle : hasIdleZero (Nat.toDigits 10 n) = false := by
    unfold hasIdleZero
    split
    · rename_i hdigits
      simp [hdigits] at hhead
    · rfl
  unfold magnitude?
  split
  case h_4 => rw [hidle, if_neg Bool.false_ne_true, digitsIn?_toDigits (by decide) (by decide)]
  all_goals
    rename_i hdigits
    simp [hdigits] at hhead

/-- Numbers below a bound are read back. -/
theorem unsigned?_toString {bound : Nat} (hn : n < bound) :
    unsigned? bound (toString n) = some n := by
  have hplus : '+' ∉ Nat.toDigits 10 n := fun hc =>
    absurd (Nat.isDigit_of_mem_toDigits (by decide) (by decide) hc) (by decide)
  rw [unsigned?, Nat.toString_eq_ofList_toDigits, String.toList_ofList]
  split
  · rename_i hdigits
    simp [hdigits] at hplus
  · simp [magnitude?_toDigits, hn]

/-- Null is no number. -/
theorem isNull_of_unsigned? {bound n : Nat} {w : String} (h : unsigned? bound w = some n) :
    isNull w = false := by
  have hall : ∀ w ∈ ["", "null", "Null", "NULL", "~"], unsigned? bound w = none := by
    simp only [List.forall_mem_cons]
    exact ⟨rfl, rfl, rfl, rfl, rfl, nofun⟩
  rw [← Bool.not_eq_true]
  intro hnull
  have hw : w ∈ ["", "null", "Null", "NULL", "~"] := by simpa [isNull] using hnull
  rw [hall w hw] at h
  cases h

end Word

end PointsTo.Yaml
