import Mathlib

/-!
# Signal strength

The loop of `RawReceiveSocket::receive` (`raw_socket.cc`) over the arguments of the radiotap header,
and the signal strength it reports.

A signal is stored under the antenna number that came last, 0 at first.  In a radiotap header the
signal of an antenna comes before its number, so a signal is stored under the number of the antenna
before, and two of them can meet in one place.
-/

namespace WfbBridge

/-- What `ieee80211_radiotap_iterator_next` yields, with the bytes that `receive` reads there. -/
inductive RadiotapArg where
  | rate (b : UInt8)
  | channel (freq flags : UInt16)
  | antenna (b : UInt8)
  | flags (b : UInt8)
  | dbmAntsignal (b : UInt8)
  | lockQuality (q : UInt16)
  /-- an argument the `switch` has no case for -/
  | other
deriving DecidableEq

/-- The fields of a `monitor_message_t` that come from the radiotap header. -/
structure RadiotapInfo where
  rate : UInt8 := 0
  channel : UInt16 := 0
  channelFlag : UInt16 := 0
  radiotapFlags : UInt8 := 0
  rssi : ℤ := 0
  lockQuality : UInt16 := 0
  rssis : List ℤ := []
deriving DecidableEq

/-- A byte as an `int8_t`. -/
def signedByte (b : UInt8) : ℤ := b.toInt8.toInt

namespace RadiotapInfo

/-- The `DBM_ANTSIGNAL` case: the vector grows to hold the antenna, and is written there. -/
def setRssi (msg : RadiotapInfo) (antenna : UInt8) (v : ℤ) : RadiotapInfo :=
  { msg with rssis := (msg.rssis.rightpad (antenna.toNat + 1) (-100)).set antenna.toNat v }

/-- One turn of the loop, on the message and `antenna`. -/
def readArg : RadiotapInfo × UInt8 → RadiotapArg → RadiotapInfo × UInt8
  | (msg, antenna), .rate b => ({ msg with rate := b }, antenna)
  | (msg, antenna), .channel freq flags =>
      ({ msg with channel := freq, channelFlag := flags }, antenna)
  | (msg, _), .antenna b => (msg, b)
  | (msg, antenna), .flags b => ({ msg with radiotapFlags := b }, antenna)
  | (msg, antenna), .dbmAntsignal b => (msg.setRssi antenna (signedByte b), antenna)
  | (msg, antenna), .lockQuality q => ({ msg with lockQuality := q }, antenna)
  | (msg, antenna), .other => (msg, antenna)

/-- The loop, and the best value after it. -/
def readArgs (msg : RadiotapInfo) (args : List RadiotapArg) : RadiotapInfo :=
  let msg := (args.foldl readArg ({ msg with rssis := [] }, 0)).1
  { msg with rssi := msg.rssis.max?.getD (-100) }

end RadiotapInfo

/-- The signals of a frame. -/
def signals (args : List RadiotapArg) : List ℤ :=
  args.filterMap fun
    | .dbmAntsignal b => some (signedByte b)
    | _ => none

/-- What is reported is the best of them. -/
def ReportsBest (args : List RadiotapArg) : Prop :=
  ∀ msg : RadiotapInfo, (msg.readArgs args).rssi = (signals args).max?.getD (-100)

/-! ## When it is the best -/

/-- The signals, each with the antenna number it is stored under. -/
def filed : UInt8 → List RadiotapArg → List (ℕ × ℤ)
  | _, [] => []
  | _, .antenna b :: args => filed b args
  | antenna, .dbmAntsignal b :: args => (antenna.toNat, signedByte b) :: filed antenna args
  | antenna, .rate _ :: args | antenna, .channel _ _ :: args | antenna, .flags _ :: args
  | antenna, .lockQuality _ :: args | antenna, .other :: args => filed antenna args

/-- The last signal stored under a number. -/
def lastFor (ps : List (ℕ × ℤ)) (i : ℕ) : Option ℤ := ps.reverse.lookup i

/-- A number is left out below one that is used. -/
def Gap (ps : List (ℕ × ℤ)) : Prop := ∃ p ∈ ps, ∃ i < p.1, lastFor ps i = none

instance (ps : List (ℕ × ℤ)) : Decidable (Gap ps) := inferInstanceAs (Decidable (∃ _ ∈ _, _))

/-- No signal is replaced by weaker ones only, unless −100 is there in a gap and covers it; and a
gap does not outdo every signal. -/
def BestKept (ps : List (ℕ × ℤ)) : Prop :=
  (∀ p ∈ ps, (∃ q ∈ ps, lastFor ps q.1 = some q.2 ∧ p.2 ≤ q.2) ∨ Gap ps ∧ p.2 ≤ -100) ∧
    (Gap ps → ∃ p ∈ ps, -100 ≤ p.2)

instance (ps : List (ℕ × ℤ)) : Decidable (BestKept ps) := inferInstanceAs (Decidable (_ ∧ _))

theorem signals_eq_filed (antenna : UInt8) (args : List RadiotapArg) :
    signals args = (filed antenna args).map Prod.snd := by
  fun_induction filed antenna args with
  | case1 => rfl
  | case2 _ b args ih => exact ih
  | case3 antenna b args ih => exact congrArg (signedByte b :: ·) ih
  | case4 _ _ _ ih => exact ih
  | case5 _ _ _ _ ih => exact ih
  | case6 _ _ _ ih => exact ih
  | case7 _ _ _ ih => exact ih
  | case8 _ _ ih => exact ih

@[simp]
theorem lastFor_concat (ps : List (ℕ × ℤ)) (a i : ℕ) (v : ℤ) :
    lastFor (ps ++ [(a, v)]) i = if i = a then some v else lastFor ps i := by
  rw [lastFor, List.reverse_concat, List.lookup_cons]
  by_cases h : i = a
  · rw [if_pos h, beq_iff_eq.mpr h]
  · rw [if_neg h, beq_eq_false_iff_ne.mpr h]
    rfl

theorem lastFor_eq_none_iff {ps : List (ℕ × ℤ)} {i : ℕ} :
    lastFor ps i = none ↔ ∀ p ∈ ps, p.1 ≠ i := by
  rw [lastFor, List.lookup_eq_none_iff]
  simp only [List.mem_reverse, bne_iff_ne, ne_comm]

theorem mem_of_lastFor {ps : List (ℕ × ℤ)} {i : ℕ} {v : ℤ} (h : lastFor ps i = some v) :
    (i, v) ∈ ps := by
  obtain ⟨l₁, l₂, heq, -⟩ := List.lookup_eq_some_iff.mp h
  rw [← List.mem_reverse, heq]
  simp

/-- The vector holds the signals `ps`: the last one of each antenna number, and −100 in the gaps. -/
def Stores (rssis : List ℤ) (ps : List (ℕ × ℤ)) : Prop :=
  ∀ i, rssis[i]? = if ∃ p ∈ ps, i ≤ p.1 then some ((lastFor ps i).getD (-100)) else none

namespace Stores

variable {rssis : List ℤ} {ps : List (ℕ × ℤ)}

theorem nil : Stores [] [] := fun i ↦ by simp

theorem lt_length_iff (h : Stores rssis ps) {i : ℕ} : i < rssis.length ↔ ∃ p ∈ ps, i ≤ p.1 := by
  rw [← not_le, ← List.getElem?_eq_none_iff, h i]
  simp

theorem lastFor_eq_none (h : Stores rssis ps) {i : ℕ} (hi : rssis.length ≤ i) :
    lastFor ps i = none := by
  cases hlast : lastFor ps i with
  | none => rfl
  | some v => exact absurd (h.lt_length_iff.mpr ⟨_, mem_of_lastFor hlast, le_rfl⟩) (by omega)

/-- A signal. -/
theorem set (h : Stores rssis ps) (a : ℕ) (v : ℤ) :
    Stores ((rssis.rightpad (a + 1) (-100)).set a v) (ps ++ [(a, v)]) := by
  intro i
  have hlen : (rssis.rightpad (a + 1) (-100)).length = max (a + 1) rssis.length :=
    List.length_rightpad
  have hused : (∃ p ∈ ps ++ [(a, v)], i ≤ p.1) ↔ i < rssis.length ∨ i ≤ a := by
    rw [h.lt_length_iff]
    simp [or_and_right, exists_or]
  rw [List.getElem?_set, hlen, lastFor_concat, if_congr hused rfl rfl]
  by_cases hia : i = a
  · subst hia
    simp
  · rw [if_neg (Ne.symm hia), if_neg hia, List.rightpad]
    rcases lt_or_ge i rssis.length with hi | hi
    · rw [List.getElem?_append_left hi, h i, if_pos (h.lt_length_iff.mp hi), if_pos (.inl hi)]
    · rw [List.getElem?_append_right hi, List.getElem?_replicate, h.lastFor_eq_none hi]
      exact if_congr (by omega) rfl rfl

/-- What is in the vector. -/
theorem mem_iff (h : Stores rssis ps) {v : ℤ} :
    v ∈ rssis ↔ (∃ i, lastFor ps i = some v) ∨ Gap ps ∧ v = -100 := by
  rw [List.mem_iff_getElem?]
  constructor
  · rintro ⟨i, hi⟩
    rw [h i] at hi
    split at hi
    case isFalse => cases hi
    case isTrue hused =>
      cases hlast : lastFor ps i with
      | some w =>
          rw [hlast] at hi
          exact .inl ⟨i, hlast.trans hi⟩
      | none =>
          rw [hlast] at hi
          obtain ⟨p, hp, hle⟩ := hused
          have hne := lastFor_eq_none_iff.mp hlast p hp
          exact .inr ⟨⟨p, hp, i, by omega, hlast⟩, (Option.some.inj hi).symm⟩
  · rintro (⟨i, hlast⟩ | ⟨⟨p, hp, i, hi, hlast⟩, rfl⟩)
    · exact ⟨i, by rw [h i, if_pos ⟨_, mem_of_lastFor hlast, le_rfl⟩, hlast]; rfl⟩
    · exact ⟨i, by rw [h i, if_pos ⟨p, hp, hi.le⟩, hlast]; rfl⟩

theorem eq_nil_iff (h : Stores rssis ps) : rssis = [] ↔ ps = [] := by
  have hpos : 0 < rssis.length ↔ ps ≠ [] := by
    rw [h.lt_length_iff, ne_eq, List.eq_nil_iff_forall_not_mem]
    simp
  rw [List.length_pos_iff] at hpos
  exact not_iff_not.mp hpos

end Stores

/-- The loop, from a vector that holds `ps`. -/
theorem stores_readArg (args : List RadiotapArg) (msg : RadiotapInfo) (antenna : UInt8)
    {ps : List (ℕ × ℤ)} (h : Stores msg.rssis ps) :
    Stores (args.foldl RadiotapInfo.readArg (msg, antenna)).1.rssis (ps ++ filed antenna args) := by
  induction args generalizing msg antenna ps with
  | nil => simpa [filed] using h
  | cons arg args ih =>
      cases arg with
      | dbmAntsignal b =>
          have hset :=
            ih (msg.setRssi antenna (signedByte b)) antenna (h.set antenna.toNat (signedByte b))
          rwa [List.append_assoc] at hset
      | antenna b => exact ih msg b h
      | rate b => exact ih { msg with rate := b } antenna h
      | channel freq flags => exact ih { msg with channel := freq, channelFlag := flags } antenna h
      | flags b => exact ih { msg with radiotapFlags := b } antenna h
      | lockQuality q => exact ih { msg with lockQuality := q } antenna h
      | other => exact ih msg antenna h

/-- Two lists have the same greatest element when each has an element above every one
of the other. -/
theorem max?_eq_max?_iff {l l' : List ℤ} (hl : l ≠ []) (hl' : l' ≠ []) :
    l.max?.getD (-100) = l'.max?.getD (-100) ↔
      (∀ x ∈ l', ∃ y ∈ l, x ≤ y) ∧ ∀ y ∈ l, ∃ x ∈ l', y ≤ x := by
  obtain ⟨m, hm⟩ := Option.isSome_iff_exists.mp (List.isSome_max?_of_ne_nil hl)
  obtain ⟨m', hm'⟩ := Option.isSome_iff_exists.mp (List.isSome_max?_of_ne_nil hl')
  obtain ⟨hmem, hle⟩ := List.max?_eq_some_iff.mp hm
  obtain ⟨hmem', hle'⟩ := List.max?_eq_some_iff.mp hm'
  rw [hm, hm', Option.getD_some, Option.getD_some]
  constructor
  · rintro rfl
    exact ⟨fun x hx ↦ ⟨m, hmem, hle' x hx⟩, fun y hy ↦ ⟨m, hmem', hle y hy⟩⟩
  · rintro ⟨hup, hdown⟩
    obtain ⟨y, hy, hmy⟩ := hup m' hmem'
    obtain ⟨x, hx, hmx⟩ := hdown m hmem
    exact le_antisymm (hmx.trans (hle' x hx)) (hmy.trans (hle y hy))

/-- The greatest entry is the best signal. -/
theorem Stores.max?_eq_iff {rssis : List ℤ} {ps : List (ℕ × ℤ)} (h : Stores rssis ps) :
    rssis.max?.getD (-100) = (ps.map Prod.snd).max?.getD (-100) ↔ BestKept ps := by
  by_cases hnil : ps = []
  · subst hnil
    rw [h.eq_nil_iff.mpr rfl]
    exact ⟨fun _ ↦ by simp [BestKept, Gap], fun _ ↦ rfl⟩
  · rw [max?_eq_max?_iff (mt h.eq_nil_iff.mp hnil) (by simpa using hnil)]
    refine and_congr ?_ ?_
    · rw [List.forall_mem_map]
      refine forall₂_congr fun p hp ↦ ?_
      constructor
      · rintro ⟨v, hv, hle⟩
        rcases h.mem_iff.mp hv with ⟨i, hlast⟩ | ⟨hgap, rfl⟩
        · exact .inl ⟨(i, v), mem_of_lastFor hlast, hlast, hle⟩
        · exact .inr ⟨hgap, hle⟩
      · rintro (⟨q, -, hlast, hle⟩ | ⟨hgap, hle⟩)
        · exact ⟨q.2, h.mem_iff.mpr (.inl ⟨q.1, hlast⟩), hle⟩
        · exact ⟨-100, h.mem_iff.mpr (.inr ⟨hgap, rfl⟩), hle⟩
    · constructor
      · intro hbelow hgap
        obtain ⟨v, hv, hle⟩ := hbelow (-100) (h.mem_iff.mpr (.inr ⟨hgap, rfl⟩))
        obtain ⟨p, hp, rfl⟩ := List.mem_map.mp hv
        exact ⟨p, hp, hle⟩
      · intro hgap v hv
        rcases h.mem_iff.mp hv with ⟨i, hlast⟩ | ⟨hg, rfl⟩
        · exact ⟨v, List.mem_map.mpr ⟨_, mem_of_lastFor hlast, rfl⟩, le_rfl⟩
        · obtain ⟨p, hp, hle⟩ := hgap hg
          exact ⟨p.2, List.mem_map_of_mem hp, hle⟩

/-- The best signal is reported exactly when it is kept. -/
theorem reportsBest_iff (args : List RadiotapArg) : ReportsBest args ↔ BestKept (filed 0 args) := by
  have hstores (msg : RadiotapInfo) : Stores (msg.readArgs args).rssis (filed 0 args) :=
    stores_readArg args { msg with rssis := [] } 0 .nil
  rw [ReportsBest, signals_eq_filed 0]
  exact ⟨fun h ↦ (hstores {}).max?_eq_iff.mp (h {}), fun h msg ↦ (hstores msg).max?_eq_iff.mpr h⟩

/-- Of a frame received at −40 dBm, by antenna 0 at −42 and by antenna 1 at −45,
the last is reported. -/
theorem not_reportsBest_two_antennas :
    ¬ReportsBest [.rate 12, .channel 2412 160, .dbmAntsignal 216, .dbmAntsignal 214, .antenna 0,
      .dbmAntsignal 211, .antenna 1] := by
  intro h
  exact absurd (h {}) (by decide)

end WfbBridge
