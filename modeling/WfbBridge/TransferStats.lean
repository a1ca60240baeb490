import Mathlib
import WfbBridge.Library.Istream

/-!
# Status messages

`serialize` and `update` of `TransferStats` (`transfer_stats.cc`): the two sides of a bridge
tell each other their statistics as fifteen fields separated by commas.

The type `F` of the floating-point fields is arbitrary.  `print` is `<<` with six digits on
it, and `strtof` the value of a decimal number.
-/

namespace WfbBridge

open Istream

/-- `TransferStats`: the fields of a status message. -/
structure TransferStats (F : Type) where
  name : List Char
  seq : UInt32
  blocks : UInt32
  bytes : UInt32
  blockErrors : UInt32
  seqErrors : UInt32
  sendBytes : UInt32
  sendBlocks : UInt32
  injectErrors : UInt32
  queueSize : F
  encTime : F
  sendTime : F
  pktTime : F
  rssi : F
  latency : F
deriving DecidableEq

namespace TransferStats

variable {F α : Type} (print : F → List Char) (strtof : List Char → F)

/-- What `serialize` writes before the floating-point numbers. -/
def countTokens (s : TransferStats F) : List (List Char) :=
  s.name :: [s.seq, s.blocks, s.bytes, s.blockErrors, s.seqErrors, s.sendBytes, s.sendBlocks,
    s.injectErrors].map fun n ↦ Nat.toDigits 10 n.toNat

/-- The floating-point numbers, in the order of the message. -/
def floats (s : TransferStats F) : List F :=
  [s.queueSize, s.encTime, s.sendTime, s.pktTime, s.latency, s.rssi]

/-- `serialize`. -/
def serialize (s : TransferStats F) : List Char :=
  [','].intercalate (s.countTokens ++ s.floats.map print)

/-- `parse_next`: the flag, the value left in the argument, and the rest of the stream. -/
def parseNext (extract : List Char → α → Bool × α) (v : α) (ss : List Char) :
    Bool × α × List Char :=
  match getline ',' ss with
  | some (token, rest) => ((extract token v).1, (extract token v).2, rest)
  | none => (false, v, ss)

/-- One call of `parse_next` in `update`, on the field given by `get` and `set`. -/
def field (extract : List Char → α → Bool × α) (get : TransferStats F → α)
    (set : TransferStats F → α → TransferStats F) (st : TransferStats F × List Char) :
    Bool × TransferStats F × List Char :=
  let (ok, v, rest) := parseNext extract (get st.1) st.2
  (ok, set st.1 v, rest)

/-- `&&`: the first failure ends the chain. -/
def chain : List (TransferStats F × List Char → Bool × TransferStats F × List Char) →
    TransferStats F × List Char → Bool × TransferStats F × List Char
  | [], st => (true, st)
  | f :: fs, st =>
      match f st with
      | (true, st) => chain fs st
      | (false, st) => (false, st)

/-- A counter. -/
def count (get : TransferStats F → UInt32) (set : TransferStats F → UInt32 → TransferStats F) :
    TransferStats F × List Char → Bool × TransferStats F × List Char :=
  field extractUInt32 get set

/-- A floating-point number. -/
def float (r : FloatInput F) (get : TransferStats F → F)
    (set : TransferStats F → F → TransferStats F) :
    TransferStats F × List Char → Bool × TransferStats F × List Char :=
  field r.extract get set

/-- The chain of `update`. -/
def fields (r : FloatInput F) :
    List (TransferStats F × List Char → Bool × TransferStats F × List Char) :=
  [field extractString name fun s v ↦ { s with name := v },
    count seq fun s v ↦ { s with seq := v },
    count blocks fun s v ↦ { s with blocks := v },
    count bytes fun s v ↦ { s with bytes := v },
    count blockErrors fun s v ↦ { s with blockErrors := v },
    count seqErrors fun s v ↦ { s with seqErrors := v },
    count sendBytes fun s v ↦ { s with sendBytes := v },
    count sendBlocks fun s v ↦ { s with sendBlocks := v },
    count injectErrors fun s v ↦ { s with injectErrors := v },
    float r queueSize fun s v ↦ { s with queueSize := v },
    float r encTime fun s v ↦ { s with encTime := v },
    float r sendTime fun s v ↦ { s with sendTime := v },
    float r pktTime fun s v ↦ { s with pktTime := v },
    float r latency fun s v ↦ { s with latency := v },
    float r rssi fun s v ↦ { s with rssi := v }]

/-- `update`: the flag it returns and the statistics it leaves. -/
def updateWith (r : FloatInput F) (t : TransferStats F) (s : List Char) : Bool × TransferStats F :=
  let (ok, t, _) := chain (fields r) (t, s)
  (ok, t)

/-- `update` on numbers that are not out of range. -/
def update (t : TransferStats F) (s : List Char) : Bool × TransferStats F :=
  t.updateWith (floatInput strtof) s

/-! ## Reading a chain of fields -/

/-- `f` reads the text `token` and changes the statistics by `upd`. -/
structure Reads (f : TransferStats F × List Char → Bool × TransferStats F × List Char)
    (token : List Char) (upd : TransferStats F → TransferStats F) : Prop where
  more : ∀ t rest, f (t, token ++ ',' :: rest) = (true, upd t, rest)
  last : ∀ t, f (t, token) = (true, upd t, [])

theorem Reads.field {extract : List Char → α → Bool × α} {get : TransferStats F → α}
    {set : TransferStats F → α → TransferStats F} {token : List Char} {v : α}
    (hcomma : ',' ∉ token) (hne : token ≠ []) (h : ∀ v', extract token v' = (true, v)) :
    Reads (TransferStats.field extract get set) token fun t ↦ set t v := by
  constructor
  · intro t rest
    simp only [TransferStats.field, parseNext, getline_append hcomma, h]
  · intro t
    simp only [TransferStats.field, parseNext, getline_last hcomma hne, h]

/-- Fields that are read one by one are read in a chain. -/
theorem chain_intercalate (t : TransferStats F)
    {fs : List (TransferStats F × List Char → Bool × TransferStats F × List Char)}
    {tokens : List (List Char × (TransferStats F → TransferStats F))} (hne : tokens ≠ [])
    (h : List.Forall₂ (fun f token ↦ Reads f token.1 token.2) fs tokens) :
    chain fs (t, [','].intercalate (tokens.map Prod.fst)) =
      (true, tokens.foldl (fun t token ↦ token.2 t) t, []) := by
  induction h generalizing t with
  | nil => exact absurd rfl hne
  | @cons f token fs tokens hf hfs ih =>
      cases tokens with
      | nil =>
          cases hfs
          simp [chain, hf.last]
      | cons token' tokens =>
          have hih := ih (token.2 t) (List.cons_ne_nil _ _)
          rw [List.map_cons, List.map_cons, List.intercalate_cons_cons, List.append_assoc,
            List.singleton_append, chain, hf.more, ← List.map_cons]
          exact hih

theorem reads_count (get : TransferStats F → UInt32)
    (set : TransferStats F → UInt32 → TransferStats F) (n : UInt32) :
    Reads (count get set) (Nat.toDigits 10 n.toNat) fun t ↦ set t n := by
  refine .field ?_ Nat.toDigits_ne_nil fun _ ↦ extractUInt32_toDigits n _
  intro hcomma
  exact absurd (Nat.isDigit_of_mem_toDigits (by decide) (by decide) hcomma) (by decide)

theorem reads_float (get : TransferStats F → F) (set : TransferStats F → F → TransferStats F)
    {x : F} (hx : ∃ d : Decimal, print x = d.text) :
    Reads (float (floatInput strtof) get set) (print x) fun t ↦ set t (strtof (print x)) := by
  obtain ⟨d, hd⟩ := hx
  rw [hd]
  exact .field d.comma_notMem_text d.text_ne_nil fun _ ↦ d.extract_text strtof _

/-! ## The round trip -/

/-- The statistics with the floating-point numbers as they are printed. -/
def printed (s : TransferStats F) : TransferStats F :=
  { s with
    queueSize := strtof (print s.queueSize)
    encTime := strtof (print s.encTime)
    sendTime := strtof (print s.sendTime)
    pktTime := strtof (print s.pktTime)
    rssi := strtof (print s.rssi)
    latency := strtof (print s.latency) }

theorem length_le_splitOn_intercalate (c : Char) (tokens : List (List Char)) :
    tokens.length ≤ (([c].intercalate tokens).splitOn c).length := by
  induction tokens with
  | nil => exact Nat.zero_le _
  | cons token tokens ih =>
      have hpos : 0 < (token.splitOn c).length :=
        List.length_pos_of_ne_nil (List.splitOn_ne_nil _ _)
      cases tokens with
      | nil =>
          rw [List.intercalate_singleton]
          exact hpos
      | cons token' tokens =>
          rw [List.intercalate_cons_cons, List.append_assoc, List.singleton_append,
            List.splitOn_append_cons_self, List.length_append, List.length_cons]
          omega

/-- The tokens before the floating-point numbers are the first nine. -/
theorem take_splitOn_serialize (s : TransferStats F) : ((s.serialize print).splitOn ',').take 9 =
    (([','].intercalate s.countTokens).splitOn ',').take 9 := by
  have happend : s.serialize print =
      [','].intercalate s.countTokens ++ ',' :: [','].intercalate (s.floats.map print) := by
    simp [serialize, countTokens, floats, List.intercalate_cons_cons]
  have hnine : 9 ≤ (([','].intercalate s.countTokens).splitOn ',').length :=
    length_le_splitOn_intercalate ',' s.countTokens
  rw [happend, List.splitOn_append_cons_self, List.take_append_of_le_length hnine]

/-- The tokens of a message, each with what it changes when it is read. -/
def readings (s : TransferStats F) : List (List Char × (TransferStats F → TransferStats F)) :=
  (s.countTokens ++ s.floats.map print).zip
    [fun t ↦ { t with name := s.name },
      fun t ↦ { t with seq := s.seq },
      fun t ↦ { t with blocks := s.blocks },
      fun t ↦ { t with bytes := s.bytes },
      fun t ↦ { t with blockErrors := s.blockErrors },
      fun t ↦ { t with seqErrors := s.seqErrors },
      fun t ↦ { t with sendBytes := s.sendBytes },
      fun t ↦ { t with sendBlocks := s.sendBlocks },
      fun t ↦ { t with injectErrors := s.injectErrors },
      fun t ↦ { t with queueSize := strtof (print s.queueSize) },
      fun t ↦ { t with encTime := strtof (print s.encTime) },
      fun t ↦ { t with sendTime := strtof (print s.sendTime) },
      fun t ↦ { t with pktTime := strtof (print s.pktTime) },
      fun t ↦ { t with latency := strtof (print s.latency) },
      fun t ↦ { t with rssi := strtof (print s.rssi) }]

/-- The two sides have the fields in the same order. -/
theorem fields_read (s : TransferStats F) (hne : s.name ≠ [])
    (hname : ∀ c ∈ s.name, c ≠ ',' ∧ isSpace c = false)
    (hfloat : ∀ x ∈ s.floats, ∃ d : Decimal, print x = d.text) :
    List.Forall₂ (fun f token ↦ Reads f token.1 token.2) (fields (floatInput strtof))
      (s.readings print strtof) := by
  simp only [floats, List.forall_mem_cons] at hfloat
  obtain ⟨hqueue, henc, hsend, hpkt, hlatency, hrssi, -⟩ := hfloat
  refine .cons ?_ ?_
  · exact .field (fun h ↦ (hname _ h).1 rfl) hne fun _ ↦
      extractString_word hne fun c hc ↦ (hname c hc).2
  · refine .cons (reads_count _ _ _) (.cons (reads_count _ _ _) (.cons (reads_count _ _ _)
      (.cons (reads_count _ _ _) (.cons (reads_count _ _ _) (.cons (reads_count _ _ _)
      (.cons (reads_count _ _ _) (.cons (reads_count _ _ _) ?_)))))))
    exact .cons (reads_float _ _ _ _ hqueue) (.cons (reads_float _ _ _ _ henc)
      (.cons (reads_float _ _ _ _ hsend) (.cons (reads_float _ _ _ _ hpkt)
      (.cons (reads_float _ _ _ _ hlatency) (.cons (reads_float _ _ _ _ hrssi) .nil)))))

/-- A status message is read back, each field from its own token. -/
theorem update_serialize (s t : TransferStats F) (hne : s.name ≠ [])
    (hname : ∀ c ∈ s.name, c ≠ ',' ∧ isSpace c = false)
    (hfloat : ∀ x ∈ s.floats, ∃ d : Decimal, print x = d.text) :
    t.update strtof (s.serialize print) = (true, s.printed print strtof) ∧
      (((s.printed print strtof).serialize print).splitOn ',').take 9 =
        ((s.serialize print).splitOn ',').take 9 := by
  constructor
  · have hchain := chain_intercalate t (List.cons_ne_nil _ _)
      (s.fields_read print strtof hne hname hfloat)
    rw [update, updateWith]
    exact congrArg (fun r : Bool × TransferStats F × List Char ↦ (r.1, r.2.1)) hchain
  · rw [take_splitOn_serialize, take_splitOn_serialize]
    rfl

/-- An integer as a printed number. -/
def decimalOfNat (n : ℕ) : Decimal where
  int := Nat.toDigits 10 n
  int_ne := Nat.toDigits_ne_nil
  int_digits _ hc := Nat.isDigit_of_mem_toDigits (by decide) (by decide) hc
  frac_digits := by simp
  exp_ne := by simp
  exp_digits := by simp

/-- The status of an air side. -/
def airStatus : TransferStats ℕ where
  name := ['a', 'i', 'r']
  seq := 1
  blocks := 2
  bytes := 3
  blockErrors := 4
  seqErrors := 5
  sendBytes := 6
  sendBlocks := 7
  injectErrors := 4294967295
  queueSize := 9
  encTime := 10
  sendTime := 11
  pktTime := 12
  rssi := 14
  latency := 13

/-- It is read back over any other status; the floating-point numbers are integers here. -/
theorem update_serialize_air :
    ({ airStatus with name := ['g'], seq := 0, injectErrors := 0, rssi := 3 } :
        TransferStats ℕ).update (fun text ↦ Nat.ofDigitChars 10 text 0)
      (airStatus.serialize (Nat.toDigits 10)) =
    (true, airStatus) := by
  have hdecimal : ∀ n : ℕ, ∃ d : Decimal, Nat.toDigits 10 n = d.text := fun n ↦
    ⟨decimalOfNat n, by
      simp [decimalOfNat, Decimal.text, Decimal.signText, Decimal.fracText, Decimal.expText]⟩
  have h := (update_serialize (Nat.toDigits 10) (fun text ↦ Nat.ofDigitChars 10 text 0) airStatus
    { airStatus with name := ['g'], seq := 0, injectErrors := 0, rssi := 3 } (by simp [airStatus])
    (by simp [airStatus, isSpace]) fun x _ ↦ hdecimal x).1
  have hprinted : airStatus.printed (Nat.toDigits 10) (fun text ↦ Nat.ofDigitChars 10 text 0) =
      airStatus := by
    simp only [printed, Nat.ofDigitChars_ten_toDigits]
  rwa [hprinted] at h

end TransferStats

end WfbBridge
