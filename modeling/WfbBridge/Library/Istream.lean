import Mathlib

/-!
# Formatted input

What `std::getline` and the extraction operators of a string stream do with the characters
of the stream, in the "C" locale.  An extraction gives a flag, false for a stream that has
failed, and the value it leaves in its argument.
-/

namespace Istream

/-- White space. -/
def isSpace (c : Char) : Bool :=
  c = ' ' ∨ c = '\t' ∨ c = '\n' ∨ c = '\x0b' ∨ c = '\x0c' ∨ c = '\r'

/-- `getline`: the characters up to the delimiter,
and those after it.  It fails when there is nothing left. -/
def getline (delim : Char) (s : List Char) : Option (List Char × List Char) :=
  if s = [] then none
  else some (s.takeWhile (· ≠ delim), (s.dropWhile (· ≠ delim)).tail)

/-- An optional sign. -/
def sign : List Char → List Char × List Char
  | '+' :: s => (['+'], s)
  | '-' :: s => (['-'], s)
  | s => ([], s)

/-- `>>` to a string. -/
def extractString (s prev : List Char) : Bool × List Char :=
  let word := (s.dropWhile isSpace).takeWhile fun c ↦ !isSpace c
  if word = [] then (false, prev) else (true, word)

/-- `>>` to an unsigned number of 32 bits: a number that is too large fails with the largest one,
and a minus negates.  Where there is nothing but white space the argument is left as it was. -/
def extractUInt32 (s : List Char) (prev : UInt32) : Bool × UInt32 :=
  let (sg, t) := sign (s.dropWhile isSpace)
  let digits := t.takeWhile Char.isDigit
  let n := Nat.ofDigitChars 10 digits 0
  if s.dropWhile isSpace = [] then (false, prev)
  else if digits = [] then (false, 0)
  else if 4294967296 ≤ n then (false, 4294967295)
  else (true, if sg = ['-'] then -UInt32.ofNat n else UInt32.ofNat n)

/-- The point and the digits after it. -/
def fraction (s : List Char) : List Char × List Char :=
  if s.head? = some '.' then ('.' :: s.tail.takeWhile Char.isDigit, s.tail.dropWhile Char.isDigit)
  else ([], s)

/-- The exponent, if there is one.  An exponent without digits spoils the number. -/
def exponent (s : List Char) : Option (List Char) :=
  if s.head? = some 'e' ∨ s.head? = some 'E' then
    let (sg, t) := sign s.tail
    let digits := t.takeWhile Char.isDigit
    if digits = [] then none else some (s.take 1 ++ sg ++ digits)
  else some []

/-- The decimal number at the start of the stream. -/
def decimalText (s : List Char) : Option (List Char) :=
  let (sg, s) := sign s
  let int := s.takeWhile Char.isDigit
  let (frac, s) := fraction (s.dropWhile Char.isDigit)
  if int = [] ∧ frac.length ≤ 1 then none
  else (exponent s).map fun exp ↦ sg ++ int ++ frac ++ exp

/-- How `>>` reads a floating-point number: whether it succeeds, and what it leaves. -/
structure FloatInput (F : Type) where
  ok : List Char → Bool
  value : List Char → F → F

/-- `>>` to a floating-point number. -/
def FloatInput.extract {F : Type} (r : FloatInput F) (s : List Char) (prev : F) : Bool × F :=
  (r.ok s, r.value s prev)

/-- `>>` on numbers that are not out of range.  `strtof` is its conversion of a text;
of an empty text it is zero. -/
def floatInput {F : Type} (strtof : List Char → F) : FloatInput F where
  ok s := (decimalText (s.dropWhile isSpace)).isSome
  value s prev :=
    if s.dropWhile isSpace = [] then prev
    else strtof ((decimalText (s.dropWhile isSpace)).getD [])

/-! ## Printed numbers -/

/-- A finite decimal number as `<<` prints it. -/
structure Decimal where
  neg : Bool := false
  int : List Char
  frac : List Char := []
  exp : Option (Bool × List Char) := none
  int_ne : int ≠ []
  int_digits : ∀ c ∈ int, c.isDigit
  frac_digits : ∀ c ∈ frac, c.isDigit
  exp_ne : ∀ e ∈ exp, e.2 ≠ []
  exp_digits : ∀ e ∈ exp, ∀ c ∈ e.2, c.isDigit

namespace Decimal

/-- The sign. -/
def signText (d : Decimal) : List Char := if d.neg then ['-'] else []

/-- The point and the fraction. -/
def fracText (d : Decimal) : List Char := if d.frac = [] then [] else '.' :: d.frac

/-- The exponent. -/
def expText (d : Decimal) : List Char :=
  match d.exp with
  | none => []
  | some (neg, ds) => 'e' :: (if neg then '-' else '+') :: ds

/-- The text of a number. -/
def text (d : Decimal) : List Char := d.signText ++ d.int ++ d.fracText ++ d.expText

end Decimal

/-! ## Reading back -/

section Span

variable {p : Char → Bool} {ds rest : List Char}

/-- A word ends where its kind of characters does. -/
theorem takeWhile_append (hds : ∀ c ∈ ds, p c = true) (hrest : ∀ c ∈ rest.head?, p c = false) :
    (ds ++ rest).takeWhile p = ds := by
  rw [List.takeWhile_append_of_pos hds]
  cases rest with
  | nil => simp
  | cons c rest =>
      rw [List.takeWhile_cons_of_neg (by simpa using hrest c rfl), List.append_nil]

theorem dropWhile_append (hds : ∀ c ∈ ds, p c = true) (hrest : ∀ c ∈ rest.head?, p c = false) :
    (ds ++ rest).dropWhile p = rest := by
  rw [List.dropWhile_append_of_pos hds]
  cases rest with
  | nil => rfl
  | cons c rest => exact List.dropWhile_cons_of_neg (by simpa using hrest c rfl)

end Span

theorem getline_append {delim : Char} {token rest : List Char} (h : delim ∉ token) :
    getline delim (token ++ delim :: rest) = some (token, rest) := by
  have htoken : ∀ c ∈ token, decide (c ≠ delim) = true := by
    intro c hc
    rw [decide_eq_true_eq]
    rintro rfl
    exact h hc
  have hrest : ∀ c ∈ (delim :: rest).head?, decide (c ≠ delim) = false := by simp
  rw [getline, if_neg (by simp), takeWhile_append htoken hrest, dropWhile_append htoken hrest,
    List.tail_cons]

theorem getline_last {delim : Char} {token : List Char} (h : delim ∉ token) (hne : token ≠ []) :
    getline delim token = some (token, []) := by
  have htoken : ∀ c ∈ token, decide (c ≠ delim) = true := by
    intro c hc
    rw [decide_eq_true_eq]
    rintro rfl
    exact h hc
  rw [getline, if_neg hne, List.takeWhile_eq_self_iff.mpr htoken,
    List.dropWhile_eq_nil_iff.mpr htoken, List.tail_nil]

theorem dropWhile_isSpace {s : List Char} (h : ∀ c ∈ s.head?, isSpace c = false) :
    s.dropWhile isSpace = s := by
  have hdrop := dropWhile_append (p := isSpace) (List.forall_mem_nil _) h
  rwa [List.nil_append] at hdrop

theorem extractString_word {word prev : List Char} (hne : word ≠ [])
    (h : ∀ c ∈ word, isSpace c = false) : extractString word prev = (true, word) := by
  have hword : ∀ c ∈ word, (!isSpace c) = true := fun c hc ↦ by rw [h c hc]; rfl
  simp only [extractString, dropWhile_isSpace fun c hc ↦ h c (List.mem_of_mem_head? hc),
    List.takeWhile_eq_self_iff.mpr hword, if_neg hne]

theorem isSpace_of_isDigit {c : Char} (h : c.isDigit = true) : isSpace c = false := by
  rw [isSpace, decide_eq_false_iff_not]
  rintro (rfl | rfl | rfl | rfl | rfl | rfl) <;> exact absurd h (by decide)

theorem sign_of_isDigit {s : List Char} (h : ∀ c ∈ s.head?, c.isDigit = true) :
    sign s = ([], s) := by
  unfold sign
  split
  case h_1 => exact absurd (h '+' rfl) (by decide)
  case h_2 => exact absurd (h '-' rfl) (by decide)
  case h_3 => rfl

/-- A printed number is read back. -/
theorem extractUInt32_toDigits (n prev : UInt32) :
    extractUInt32 (Nat.toDigits 10 n.toNat) prev = (true, n) := by
  have hdigits : ∀ c ∈ Nat.toDigits 10 n.toNat, c.isDigit = true := fun c hc ↦
    Nat.isDigit_of_mem_toDigits (by decide) (by decide) hc
  have hhead : ∀ c ∈ (Nat.toDigits 10 n.toNat).head?, c.isDigit = true := fun c hc ↦
    hdigits c (List.mem_of_mem_head? hc)
  have hlt := n.toNat_lt
  simp only [extractUInt32, dropWhile_isSpace fun c hc ↦ isSpace_of_isDigit (hhead c hc),
    sign_of_isDigit hhead, List.takeWhile_eq_self_iff.mpr hdigits, Nat.ofDigitChars_ten_toDigits,
      if_neg Nat.toDigits_ne_nil]
  rw [if_neg (by omega)]
  simp

namespace Decimal

variable (d : Decimal)

theorem expText_head {c : Char} (h : c ∈ d.expText.head?) : c = 'e' := by
  rw [expText] at h
  split at h
  · cases h
  · exact (Option.some.inj h).symm

theorem fracText_append_head {c : Char} (h : c ∈ (d.fracText ++ d.expText).head?) :
    c.isDigit = false := by
  rw [fracText] at h
  split at h
  · rw [d.expText_head h]
    rfl
  · rw [← Option.some.inj h]
    rfl

theorem sign_text : sign d.text = (d.signText, d.int ++ (d.fracText ++ d.expText)) := by
  have hhead : ∀ c ∈ (d.int ++ (d.fracText ++ d.expText)).head?, c.isDigit = true := by
    intro c hc
    obtain ⟨c', int, hint⟩ := List.exists_cons_of_ne_nil d.int_ne
    rw [hint, List.cons_append, List.head?_cons] at hc
    rw [← Option.some.inj hc]
    exact d.int_digits c' (hint ▸ List.mem_cons_self)
  rw [text, signText, List.append_assoc, List.append_assoc]
  cases d.neg with
  | false => exact sign_of_isDigit hhead
  | true => rfl

theorem fraction_text : fraction (d.fracText ++ d.expText) = (d.fracText, d.expText) := by
  have hexp : ∀ c ∈ d.expText.head?, c.isDigit = false := fun c hc ↦ by
    rw [d.expText_head hc]
    rfl
  rw [fraction, fracText]
  by_cases hfrac : d.frac = []
  · rw [if_pos hfrac, List.nil_append, if_neg]
    intro hhead
    exact absurd (d.expText_head hhead) (by decide)
  · rw [if_neg hfrac, List.cons_append, if_pos List.head?_cons, List.tail_cons,
      takeWhile_append d.frac_digits hexp, dropWhile_append d.frac_digits hexp]

theorem exponent_text : exponent d.expText = some d.expText := by
  rw [expText]
  cases hexp : d.exp with
  | none => rfl
  | some e =>
      obtain ⟨neg, ds⟩ := e
      have hdigits : ds.takeWhile Char.isDigit = ds :=
        List.takeWhile_eq_self_iff.mpr (d.exp_digits _ hexp)
      have hsign : sign ((if neg then '-' else '+') :: ds) = ([if neg then '-' else '+'], ds) := by
        cases neg <;> rfl
      simp only [exponent, List.head?_cons, true_or, if_true, List.tail_cons, hsign, hdigits,
        if_neg (d.exp_ne _ hexp)]
      rfl

/-- A printed number is read as a whole. -/
theorem decimalText_text : decimalText d.text = some d.text := by
  have hint := takeWhile_append d.int_digits fun c hc ↦ d.fracText_append_head hc
  have hrest := dropWhile_append d.int_digits fun c hc ↦ d.fracText_append_head hc
  simp only [decimalText, d.sign_text, hint, hrest, d.fraction_text, d.exponent_text, d.int_ne,
    false_and, if_false, Option.map_some]
  rfl

theorem text_ne_nil : d.text ≠ [] := by
  simp [text, d.int_ne]

/-- It is read as the value of its text. -/
theorem extract_text {F : Type} (strtof : List Char → F) (prev : F) :
    (floatInput strtof).extract d.text prev = (true, strtof d.text) := by
  have hspace : ∀ c ∈ d.text.head?, isSpace c = false := by
    intro c hc
    rw [text, signText, List.append_assoc, List.append_assoc] at hc
    obtain ⟨c', int, hint⟩ := List.exists_cons_of_ne_nil d.int_ne
    cases hneg : d.neg with
    | false =>
        rw [hneg, hint] at hc
        rw [← Option.some.inj hc]
        exact isSpace_of_isDigit (d.int_digits c' (hint ▸ List.mem_cons_self))
    | true =>
        rw [hneg] at hc
        rw [← Option.some.inj hc]
        rfl
  simp only [FloatInput.extract, floatInput, dropWhile_isSpace hspace, d.decimalText_text,
    if_neg d.text_ne_nil, Option.isSome_some, Option.getD_some]

theorem comma_notMem_text : ',' ∉ d.text := by
  intro h
  rw [text, List.append_assoc, List.append_assoc, List.mem_append, List.mem_append,
    List.mem_append] at h
  rcases h with h | h | h | h
  · rw [signText] at h
    split at h <;> simp at h
  · exact absurd (d.int_digits _ h) (by decide)
  · rw [fracText] at h
    split at h
    · simp at h
    · rcases List.mem_cons.mp h with h | h
      · exact absurd h (by decide)
      · exact absurd (d.frac_digits _ h) (by decide)
  · rw [expText] at h
    split at h
    case h_1 => simp at h
    case h_2 neg ds hexp =>
        rcases List.mem_cons.mp h with h | h
        · exact absurd h (by decide)
        rcases List.mem_cons.mp h with h | h
        · cases neg <;> exact absurd h (by decide)
        · exact absurd (d.exp_digits _ hexp _ h) (by decide)

end Decimal

/-! ## What is accepted -/

/-- There is a word in the text. -/
def hasWord (s : List Char) : Bool := s.any fun c ↦ !isSpace c

/-- The text starts with a number of 32 bits. -/
def hasUInt32 (s : List Char) : Bool :=
  let digits := (sign (s.dropWhile isSpace)).2.takeWhile Char.isDigit
  digits ≠ [] ∧ Nat.ofDigitChars 10 digits 0 < 4294967296

/-- The tokens of a text, in order, are accepted. -/
def accepts (delim : Char) : List (List Char → Bool) → List Char → Bool
  | [], _ => true
  | p :: ps, s =>
      match getline delim s with
      | some (token, rest) => p token && accepts delim ps rest
      | none => false

theorem extractString_of_not_hasWord {s : List Char} (h : hasWord s = false) (prev : List Char) :
    extractString s prev = (false, prev) := by
  have hall : s.dropWhile isSpace = [] := by
    rw [List.dropWhile_eq_nil_iff]
    intro c hc
    simpa using (List.any_eq_false.mp h) c hc
  simp [extractString, hall]

theorem extractString_of_hasWord {s : List Char} (h : hasWord s = true) :
    ∃ word, word ≠ [] ∧ ∀ prev, extractString s prev = (true, word) := by
  obtain ⟨c, hc, hword⟩ := List.any_eq_true.mp h
  have hdrop : s.dropWhile isSpace ≠ [] := by
    intro hnil
    rw [List.dropWhile_eq_nil_iff] at hnil
    rw [hnil c hc] at hword
    cases hword
  have hhead := List.head_dropWhile_not isSpace hdrop
  refine ⟨(s.dropWhile isSpace).takeWhile fun c ↦ !isSpace c, ?_, fun prev ↦ if_neg ?_⟩ <;>
  · rw [← List.cons_head_tail hdrop, List.takeWhile_cons_of_pos (by simpa using hhead)]
    exact List.cons_ne_nil _ _

theorem extractString_fst (s prev : List Char) : (extractString s prev).1 = hasWord s := by
  cases h : hasWord s with
  | false => rw [extractString_of_not_hasWord h]
  | true =>
      obtain ⟨word, -, hword⟩ := extractString_of_hasWord h
      rw [hword]

theorem extractUInt32_fst (s : List Char) (prev : UInt32) :
    (extractUInt32 s prev).1 = hasUInt32 s := by
  rw [extractUInt32, hasUInt32]
  by_cases hnil : s.dropWhile isSpace = []
  · simp [hnil, sign]
  · simp only [if_neg hnil]
    split
    case isTrue hdigits => simp [hdigits]
    case isFalse hdigits =>
      split
      case isTrue hle => simp [hdigits, hle]
      case isFalse hlt => simp [hdigits, Nat.not_le.mp hlt]

end Istream
