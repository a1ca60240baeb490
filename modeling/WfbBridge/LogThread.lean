import Mathlib
import WfbBridge.TransferStats

/-!
# Status messages that cannot be read

`update` reads a status message field by field into the object it is called on, and stops at the
first field that it cannot read.  `log_thread` calls it on a new object, and copies that to
`stats_other` if the name in it is not its own.

What `update` returns is a property of the message alone (`WellFormed`), and so is the name that
it finds.
-/

namespace WfbBridge

open Istream

/-- `TransferStats` with the fields that are not in a status message. -/
structure StatsObject (F : Type) where
  status : TransferStats F
  window : F
  flushes : UInt32
  portBlocks : List UInt32
  ipPortBlocks : List (ℕ × UInt32 × UInt64)
deriving DecidableEq

namespace StatsObject

variable {F : Type} (r : FloatInput F)

/-- The constructor.  `m_window` is left uninitialized. -/
def new [Zero F] (name : List Char) (window : F) : StatsObject F where
  status :=
    { name
      seq := 0
      blocks := 0
      bytes := 0
      blockErrors := 0
      seqErrors := 0
      sendBytes := 0
      sendBlocks := 0
      injectErrors := 0
      queueSize := 0
      encTime := 0
      sendTime := 0
      pktTime := 0
      rssi := 0
      latency := 0 }
  window
  flushes := 0
  portBlocks := List.replicate 16 0
  ipPortBlocks := []

/-- `name`. -/
def name (o : StatsObject F) : List Char := o.status.name

/-- `update`. -/
def update (o : StatsObject F) (s : List Char) : Bool × StatsObject F :=
  let (ok, status) := o.status.updateWith r s
  (ok, { o with status })

variable [Zero F]

/-- The object of a turn of `log_thread`, with what was in `m_window`, after the message. -/
def received (p : F × List Char) : Bool × StatsObject F := (new [] p.1).update r p.2

/-- `log_thread` with a message that it has taken.  `own` is the name of this side. -/
def logTurn (own : List Char) (other : StatsObject F) (p : F × List Char) : StatsObject F :=
  -- a message that could not be read is logged
  if (received r p).2.name ≠ own then (received r p).2 else other

/-- The last well-formed message from the other side. -/
def lastWellFormed (own : List Char) (other : StatsObject F) (ps : List (F × List Char)) :
    StatsObject F :=
  ps.foldl (fun other p ↦
    if (received r p).1 = true ∧ (received r p).2.name ≠ own then (received r p).2 else other) other

/-- A message that is rejected changes nothing: neither the object that `update` is called on nor
`stats_other`, which is what the last well-formed message said. -/
structure RejectedChangesNothing (own : List Char) (ps : List (F × List Char)) : Prop where
  update : ∀ p ∈ ps, ∀ o : StatsObject F, (o.update r p.2).1 = false → (o.update r p.2).2 = o
  logTurn : ∀ p ∈ ps, (received r p).1 = false → ∀ other, logTurn r own other p = other
  other : ∀ other, ps.foldl (StatsObject.logTurn r own) other = lastWellFormed r own other ps

end StatsObject

/-! ## What a message says -/

namespace TransferStats

variable {F α : Type} (r : FloatInput F)

/-- A message of the fifteen fields. -/
def WellFormed (s : List Char) : Prop :=
  accepts ',' (hasWord :: List.replicate 8 hasUInt32 ++ List.replicate 6 r.ok) s = true

/-- The first field has a name in it. -/
def HasName (s : List Char) : Prop := accepts ',' [hasWord] s = true

instance (s : List Char) : Decidable (WellFormed r s) := inferInstanceAs (Decidable (_ = true))

instance (s : List Char) : Decidable (HasName s) := inferInstanceAs (Decidable (_ = true))

/-- Whether `f` succeeds is decided by `p` on the next token. -/
structure Checks (f : TransferStats F × List Char → Bool × TransferStats F × List Char)
    (p : List Char → Bool) : Prop where
  token : ∀ {t s token rest}, getline ',' s = some (token, rest) →
    ∃ t', f (t, s) = (p token, t', rest)
  empty : ∀ {t s}, getline ',' s = none → f (t, s) = (false, t, s)

theorem Checks.field {extract : List Char → α → Bool × α} {p : List Char → Bool}
    (h : ∀ token v, (extract token v).1 = p token) (get : TransferStats F → α)
    (set : TransferStats F → α → TransferStats F) (hset : ∀ t, set t (get t) = t) :
    Checks (TransferStats.field extract get set) p := by
  constructor
  · intro t s token rest hs
    simp only [TransferStats.field, parseNext, hs, h]
    exact ⟨_, rfl⟩
  · intro t s hs
    simp only [TransferStats.field, parseNext, hs, hset]

/-- Whether a chain succeeds is decided token by token. -/
theorem chain_fst {fs : List (TransferStats F × List Char → Bool × TransferStats F × List Char)}
    {ps : List (List Char → Bool)} (h : List.Forall₂ Checks fs ps) (t : TransferStats F)
    (s : List Char) :
    (chain fs (t, s)).1 = accepts ',' ps s := by
  induction h generalizing t s with
  | nil => rfl
  | @cons f p fs ps hf _ ih =>
      rw [chain, accepts]
      cases hs : getline ',' s with
      | none => rw [hf.empty hs]
      | some tr =>
          obtain ⟨token, rest⟩ := tr
          obtain ⟨t', ht'⟩ := hf.token (t := t) hs
          rw [ht']
          change _ = (p token && accepts ',' ps rest)
          cases p token with
          | false => rfl
          | true => exact ih t' rest

/-- What the fields of a chain leave alone is left alone. -/
theorem chain_proj {β : Type} (g : TransferStats F → β)
    {fs : List (TransferStats F × List Char → Bool × TransferStats F × List Char)}
    (h : ∀ f ∈ fs, ∀ st, g (f st).2.1 = g st.1) (st : TransferStats F × List Char) :
    g (chain fs st).2.1 = g st.1 := by
  induction fs generalizing st with
  | nil => rfl
  | cons f fs ih =>
      have hf := h f List.mem_cons_self st
      rw [chain]
      revert hf
      obtain ⟨ok, st'⟩ := f st
      intro hf
      cases ok with
      | true => exact (ih (fun f hf ↦ h f (List.mem_cons_of_mem _ hf)) st').trans hf
      | false => exact hf

theorem fields_check : List.Forall₂ Checks (fields r)
    (hasWord :: List.replicate 8 hasUInt32 ++ List.replicate 6 r.ok) := by
  have hcount : ∀ (get : TransferStats F → UInt32)
      (set : TransferStats F → UInt32 → TransferStats F),
      (∀ t, set t (get t) = t) → Checks (count get set) hasUInt32 := fun get set hset ↦
    .field extractUInt32_fst get set hset
  have hfloat : ∀ (get : TransferStats F → F) (set : TransferStats F → F → TransferStats F),
      (∀ t, set t (get t) = t) → Checks (float r get set) r.ok := fun get set hset ↦
    .field (fun token v ↦ (rfl : (r.extract token v).1 = r.ok token)) get set hset
  refine .cons (.field extractString_fst _ _ fun _ ↦ rfl) ?_
  refine .cons (hcount _ _ fun _ ↦ rfl) (.cons (hcount _ _ fun _ ↦ rfl)
    (.cons (hcount _ _ fun _ ↦ rfl)
    (.cons (hcount _ _ fun _ ↦ rfl) (.cons (hcount _ _ fun _ ↦ rfl) (.cons (hcount _ _ fun _ ↦ rfl)
    (.cons (hcount _ _ fun _ ↦ rfl) (.cons (hcount _ _ fun _ ↦ rfl) ?_)))))))
  exact .cons (hfloat _ _ fun _ ↦ rfl) (.cons (hfloat _ _ fun _ ↦ rfl)
    (.cons (hfloat _ _ fun _ ↦ rfl) (.cons (hfloat _ _ fun _ ↦ rfl)
    (.cons (hfloat _ _ fun _ ↦ rfl) (.cons (hfloat _ _ fun _ ↦ rfl) .nil)))))

/-- `update` accepts the well-formed messages. -/
theorem updateWith_fst (t : TransferStats F) (s : List Char) :
    (t.updateWith r s).1 = true ↔ WellFormed r s := by
  rw [WellFormed, ← chain_fst (fields_check r) t s]
  rfl

variable {r} {s : List Char}

/-- Without a name nothing is read. -/
theorem updateWith_of_not_hasName (h : ¬HasName s) (t : TransferStats F) :
    t.updateWith r s = (false, t) := by
  have hname : TransferStats.field extractString name (fun s v ↦ { s with name := v }) (t, s) =
      (false, t,
        (TransferStats.field extractString name (fun s v ↦ { s with name := v }) (t, s)).2.2) := by
    rw [HasName, accepts] at h
    simp only [TransferStats.field, parseNext]
    cases hs : getline ',' s with
    | none => rfl
    | some tr =>
        rw [hs] at h
        have hword : hasWord tr.1 = false := by simpa [accepts] using h
        simp only [extractString_of_not_hasWord hword]
  rw [updateWith, fields, chain, hname]

/-- The name is read first, and stays. -/
theorem updateWith_of_hasName (h : HasName s) :
    ∃ word, word ≠ [] ∧ ∀ t : TransferStats F, (t.updateWith r s).2.name = word := by
  rw [HasName, accepts] at h
  cases hs : getline ',' s with
  | none =>
      rw [hs] at h
      cases h
  | some tr =>
      rw [hs] at h
      have hword : hasWord tr.1 = true := by simpa [accepts] using h
      obtain ⟨word, hne, hextract⟩ := extractString_of_hasWord hword
      refine ⟨word, hne, fun t ↦ ?_⟩
      have hfirst : TransferStats.field extractString name (fun s v ↦ { s with name := v }) (t, s) =
          (true, { t with name := word }, tr.2) := by
        simp only [TransferStats.field, parseNext, hs, hextract]
      rw [updateWith, fields, chain, hfirst]
      refine chain_proj name ?_ _
      simp only [List.forall_mem_cons]
      exact ⟨fun _ ↦ rfl, fun _ ↦ rfl, fun _ ↦ rfl, fun _ ↦ rfl, fun _ ↦ rfl, fun _ ↦ rfl,
        fun _ ↦ rfl, fun _ ↦ rfl, fun _ ↦ rfl, fun _ ↦ rfl, fun _ ↦ rfl, fun _ ↦ rfl, fun _ ↦ rfl,
        fun _ ↦ rfl, List.forall_mem_nil _⟩

end TransferStats

/-! ## What `log_thread` does with it -/

namespace StatsObject

variable {F : Type} {r : FloatInput F}

theorem update_fst (o : StatsObject F) (s : List Char) :
    (o.update r s).1 = true ↔ TransferStats.WellFormed r s := o.status.updateWith_fst r s

/-- An object of another name is changed by a message with a name. -/
theorem update_ne (s : List Char) (h : TransferStats.HasName s) (o : StatsObject F) :
    ∃ o' : StatsObject F, (o'.update r s).2 ≠ o' := by
  obtain ⟨word, hne, hword⟩ := TransferStats.updateWith_of_hasName (r := r) h
  refine ⟨{ o with status := { o.status with name := [] } }, fun heq ↦ hne ?_⟩
  rw [← hword { o.status with name := [] }]
  exact congrArg name heq

variable [Zero F]

/-- What `log_thread` takes from a message that has no name. -/
theorem received_of_not_hasName {p : F × List Char} (h : ¬TransferStats.HasName p.2) :
    received r p = (false, new [] p.1) := by
  rw [received, update, TransferStats.updateWith_of_not_hasName h]

/-- `stats_other` is replaced whenever the name is not its own. -/
theorem logTurn_ne {own : List Char} {p : F × List Char} (h : (received r p).2.name ≠ own) :
    ∃ other, logTurn r own other p ≠ other := by
  refine ⟨{ (received r p).2 with status := { (received r p).2.status with
    name := 'x' :: (received r p).2.name } }, fun heq ↦ ?_⟩
  rw [logTurn, if_pos h] at heq
  exact List.cons_ne_self _ _ (congrArg name heq).symm

/-- Rejected messages change nothing only where there are none, but for those without a name on a
side without a name. -/
theorem rejectedChangesNothing_iff (r : FloatInput F) (own : List Char)
    (ps : List (F × List Char)) :
    RejectedChangesNothing r own ps ↔ ∀ p ∈ ps, TransferStats.WellFormed r p.2 ∨
      ¬TransferStats.HasName p.2 ∧ own = [] := by
  constructor
  · intro h p hp
    by_cases hwell : TransferStats.WellFormed r p.2
    · exact .inl hwell
    · have hreject : ∀ o : StatsObject F, (o.update r p.2).1 = false := fun o ↦
        Bool.eq_false_iff.mpr (mt (o.update_fst p.2).mp hwell)
      have hname : ¬TransferStats.HasName p.2 := by
        intro hname
        obtain ⟨o, ho⟩ := update_ne (r := r) p.2 hname (new [] p.1)
        exact ho (h.update p hp o (hreject o))
      refine .inr ⟨hname, ?_⟩
      by_contra hown
      have hne : (received r p).2.name ≠ own := by
        rw [received_of_not_hasName hname]
        exact Ne.symm hown
      obtain ⟨other, hother⟩ := logTurn_ne hne
      exact hother (h.logTurn p hp (hreject _) other)
  · intro h
    have hturn : ∀ p ∈ ps, (received r p).1 = false → (received r p).2.name = own := by
      intro p hp hreject
      rcases h p hp with hwell | ⟨hname, rfl⟩
      · rw [received, ((new [] p.1).update_fst p.2).mpr hwell] at hreject
        cases hreject
      · rw [received_of_not_hasName hname]
        rfl
    refine ⟨?_, ?_, ?_⟩
    · intro p hp o hreject
      rcases h p hp with hwell | ⟨hname, -⟩
      · rw [(o.update_fst p.2).mpr hwell] at hreject
        cases hreject
      · rw [update, TransferStats.updateWith_of_not_hasName hname]
    · intro p hp hreject other
      exact if_neg (not_not.mpr (hturn p hp hreject))
    · intro other
      rw [lastWellFormed]
      refine List.foldl_ext _ _ _ fun other p hp ↦ ?_
      rw [logTurn]
      cases hok : (received r p).1 with
      | true => simp
      | false => simp [hturn p hp hok]

/-- A message that ends after its second field. -/
def truncated : List Char := ['a', 'i', 'r', ',', '7']

/-- What the ground side knew is lost when the rest of a message is missing. -/
theorem not_rejectedChangesNothing_truncated :
    logTurn (floatInput fun text ↦ Nat.ofDigitChars 10 text 0) ['g', 'r', 'o', 'u', 'n', 'd']
        { new ['a', 'i', 'r'] 0 with status := TransferStats.airStatus } (0, truncated) =
      { new ['a', 'i', 'r'] 0 with status := { (new ['a', 'i', 'r'] 0).status with seq := 7 } } ∧
    ¬RejectedChangesNothing (floatInput fun text ↦ Nat.ofDigitChars 10 text 0)
      ['g', 'r', 'o', 'u', 'n', 'd'] [(0, truncated)] := by
  refine ⟨by decide, fun h ↦ ?_⟩
  have hother := h.logTurn (0, truncated) List.mem_cons_self (by decide)
    { new ['a', 'i', 'r'] 0 with status := TransferStats.airStatus }
  exact absurd hother (by decide)

end StatsObject

end WfbBridge
