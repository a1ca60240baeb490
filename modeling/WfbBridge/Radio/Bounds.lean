import Mathlib
import WfbBridge.Library.Checked
import WfbBridge.Radio.Receive

/-!
# Captured frames of any kind

A frame that passes the filter need not come from a bridge, and the capture may be cut.
`receive` takes the lengths of the headers from the frame.  It reads past the captured bytes
if the frame ends before the time stamp, if the radiotap header is cut, if there is no room
for the FCS after the headers, or if more than the FCS is missing.
-/

namespace WfbBridge

open Checked

namespace RawReceiveSocket

/-- The lengths of the two headers of a frame, as `receive` sees them. -/
def headerLengths (cap : List UInt8) : Option (ℕ × ℕ) := do
  let rt ← rtLength cap
  let kind ← cap[rt + 1]?
  let (n, _) ← frameKind kind
  some (rt, n)

/-- `receive` reads captured bytes only, and a message it returns has what is left of the frame
without the headers and the FCS. -/
def InBounds (curTime : ℕ) (cap : List UInt8) (len : ℕ) : Prop :=
  ∃ r, receive curTime (.frame cap len) = .ok r ∧ ∀ msg, r = some msg →
    ∃ rt n, headerLengths cap = some (rt, n) ∧ rt + n + 4 ≤ len ∧
      msg.data.length = len - rt - n - 4

/-- The fixed part of the radiotap header, which ends at byte 8, is captured or not looked at. -/
def FixedPartCaptured (cap : List UInt8) (len : ℕ) : Prop :=
  8 ≤ cap.length ∨ len < 8 ∨ 2147483648 ≤ len ∨ cap[0]? ≠ some 0

/-- What has to be captured of a frame. -/
def Captured (cap : List UInt8) (len : ℕ) : Prop :=
  ∃ rt n, headerLengths cap = some (rt, n) ∧ (5 < n → rt + 5 < cap.length) ∧
    (rt + n ≤ len → FixedPartCaptured cap len ∧
      (radiotapIteratorInit cap len = .ok true →
        rt + n + 4 = len ∨ rt + n + 4 ≤ len ∧ len ≤ cap.length + 4))

/-! ## What the filter ensures -/

section Filter

variable {ground : Bool} {cap : List UInt8}

/-- An accepted frame has the byte with the port, and a known kind. -/
theorem acceptsIeee_spec {ieee : List UInt8} (h : acceptsIeee ground ieee = true) :
    5 ≤ ieee.length ∧ ∃ b, ieee[1]? = some b ∧ (b = 1 ∨ b = 2) := by
  simp only [acceptsIeee, decide_eq_true_eq] at h
  obtain ⟨hcontrol, hport⟩ := h
  have hlen : 5 ≤ ieee.length := by
    by_contra hshort
    rw [ether, if_neg (by omega)] at hport
    cases hport
  obtain ⟨a, b, c, d, e, rest, rfl⟩ : ∃ a b c d e rest, ieee = a :: b :: c :: d :: e :: rest := by
    rcases ieee with _ | ⟨a, _ | ⟨b, _ | ⟨c, _ | ⟨d, _ | ⟨e, rest⟩⟩⟩⟩⟩
    case cons.cons.cons.cons.cons => exact ⟨a, b, c, d, e, rest, rfl⟩
    all_goals simp at hlen
  refine ⟨hlen, b, rfl, ?_⟩
  have hbytes : a.toNat < 256 ∧ b.toNat < 256 ∧ c.toNat < 256 ∧ d.toNat < 256 :=
    ⟨a.toNat_lt, b.toNat_lt, c.toNat_lt, d.toNat_lt⟩
  simp only [ether, Nat.zero_add, List.length_cons, List.drop_zero, List.take_succ_cons,
    List.take_zero, List.foldl_cons, List.foldl_nil, Nat.mul_zero] at hcontrol
  rw [if_pos (by omega), if_pos (by omega), Option.some_inj, Option.some_inj,
    Option.some_inj] at hcontrol
  simp only [← UInt8.toNat_inj]
  have : b.toNat = 1 ∨ b.toNat = 2 := by omega
  simpa using this

/-- The headers of an accepted frame. -/
theorem captureFilter_spec (h : captureFilter ground cap = true) :
    ∃ rt b n linkType, readLe16 cap 2 = .ok rt ∧ rt + 5 ≤ cap.length ∧ cap[rt + 1]? = some b ∧
      frameKind b = some (n, linkType) ∧ headerLengths cap = some (rt, n) := by
  rw [captureFilter] at h
  cases hrt : readLe16 cap 2 with
  | error e => simp [rtLength, hrt, Except.toOption] at h
  | ok rt =>
      have hlength : rtLength cap = some rt := by rw [rtLength, hrt]; rfl
      rw [hlength] at h
      obtain ⟨hfive, b, hb, hkind⟩ := acceptsIeee_spec h
      rw [List.length_drop] at hfive
      rw [List.getElem?_drop] at hb
      obtain ⟨n, linkType, hn⟩ : ∃ n linkType, frameKind b = some (n, linkType) := by
        rcases hkind with rfl | rfl
        · exact ⟨_, _, rfl⟩
        · exact ⟨_, _, rfl⟩
      refine ⟨rt, b, n, linkType, rfl, by omega, hb, hn, ?_⟩
      simp [headerLengths, hlength, hb, hn]

end Filter

/-! ## The radiotap iterator -/

section Iterator

variable {cap : List UInt8} {i : ℕ}

theorem readLe16_ok (h : i + 2 ≤ cap.length) : ∃ n, readLe16 cap i = .ok n := by
  rw [readLe16, readAt_of_lt _ (by omega), ok_bind, readAt_of_lt _ (by omega), ok_bind]
  exact ⟨_, rfl⟩

theorem readLe32_ok (h : i + 4 ≤ cap.length) : ∃ n, readLe32 cap i = .ok n := by
  obtain ⟨lo, hlo⟩ := readLe16_ok (show i + 2 ≤ cap.length by omega)
  obtain ⟨hi, hhi⟩ := readLe16_ok (show i + 2 + 2 ≤ cap.length by omega)
  rw [readLe32, hlo, ok_bind, hhi, ok_bind]
  exact ⟨_, rfl⟩

theorem length_of_readLe16 {n : ℕ} (h : readLe16 cap i = .ok n) : i + 2 ≤ cap.length := by
  obtain ⟨lo, -, hrest⟩ := bind_eq_ok.mp h
  obtain ⟨hi, hhi, -⟩ := bind_eq_ok.mp hrest
  exact (List.getElem?_eq_some_iff.mp (readAt_eq_ok.mp hhi)).1

theorem length_of_readLe32 {n : ℕ} (h : readLe32 cap i = .ok n) : i + 4 ≤ cap.length := by
  obtain ⟨lo, -, hrest⟩ := bind_eq_ok.mp h
  obtain ⟨hi, hhi, -⟩ := bind_eq_ok.mp hrest
  exact length_of_readLe16 hhi

/-- The loop over the `present` words stays inside the header. -/
theorem skipPresent_ne_error {itLen : ℕ} (hle : itLen ≤ cap.length) (fuel : ℕ) :
    ∀ arg, arg + 4 ≤ itLen → ∃ arg?,
      RadiotapIterator.skipPresent cap itLen fuel arg = .ok arg? := by
  induction fuel with
  | zero => exact fun _ _ ↦ ⟨none, rfl⟩
  | succ fuel ih =>
      intro arg harg
      obtain ⟨word, hword⟩ := readLe32_ok (show arg + 4 ≤ cap.length by omega)
      rw [RadiotapIterator.skipPresent, hword, ok_bind]
      by_cases hext : hasExt word = true
      · rw [if_pos hext]
        by_cases hroom : itLen < arg + 4 + 4
        · exact ⟨none, if_pos hroom⟩
        · rw [if_neg hroom]
          exact ih (arg + 4) (by omega)
      · exact ⟨_, if_neg hext⟩

/-- The iterator is initialized in bounds if the fixed part of the header is captured,
and only then. -/
theorem radiotapIteratorInit_ok_iff {rt len : ℕ} (hrt : readLe16 cap 2 = .ok rt)
    (hle : rt ≤ cap.length) (hlen : rt ≤ len) :
    (∃ valid, radiotapIteratorInit cap len = .ok valid) ↔ FixedPartCaptured cap len := by
  have hfour := length_of_readLe16 hrt
  have hmap : (∃ valid, radiotapIteratorInit cap len = .ok valid) ↔
      ∃ it?, RadiotapIterator.init cap len = .ok it? := by
    rw [radiotapIteratorInit]
    cases RadiotapIterator.init cap len <;> simp [Except.map]
  rw [hmap, RadiotapIterator.init, FixedPartCaptured]
  by_cases hrange : len < 8 ∨ 2147483648 ≤ len
  · rw [if_pos hrange]
    exact iff_of_true ⟨none, rfl⟩ (.inr (hrange.imp_right .inl))
  have hzero : readAt Fault.bytes cap 0 = .ok cap[0] := readAt_of_lt _ (by omega)
  rw [if_neg hrange, hzero, ok_bind]
  by_cases hversion : cap[0] = 0
  · rw [if_neg (not_not_intro hversion), hrt, ok_bind, if_neg (Nat.not_lt.mpr hlen)]
    have hget : cap[0]? = some 0 := by rw [List.getElem?_eq_getElem (by omega), hversion]
    constructor
    · rintro ⟨it?, hinit⟩
      obtain ⟨word, hword, -⟩ := bind_eq_ok.mp hinit
      exact .inl (length_of_readLe32 hword)
    · intro hfixed
      obtain ⟨word, hword⟩ := readLe32_ok (show 4 + 4 ≤ cap.length by
        rcases hfixed with h | h | h | h
        · exact h
        · exact absurd (.inl h) hrange
        · exact absurd (.inr h) hrange
        · exact absurd hget h)
      rw [hword, ok_bind]
      by_cases hext : hasExt word = true
      · rw [if_pos hext]
        by_cases hroom : rt < 8 + 4
        · exact ⟨none, if_pos hroom⟩
        · obtain ⟨arg?, hskip⟩ := skipPresent_ne_error hle rt 8 (by omega)
          rw [if_neg hroom, hskip]
          exact ⟨_, rfl⟩
      · exact ⟨_, if_neg hext⟩
  · rw [if_pos hversion]
    refine iff_of_true ⟨none, rfl⟩ (.inr (.inr (.inr ?_)))
    rw [List.getElem?_eq_getElem (by omega), Ne, Option.some_inj]
    exact hversion

end Iterator

/-! ## `receive` in bounds -/

section InBounds

variable {cap : List UInt8} {len : ℕ}

/-- The time stamp is captured, or there is none. -/
theorem latency_ok_iff {curTime rt n : ℕ} :
    (∃ latencyMs, latency curTime cap rt n = .ok latencyMs) ↔ (5 < n → rt + 5 < cap.length) := by
  rw [latency]
  by_cases h5 : 5 < n
  · rw [if_pos h5]
    constructor
    · rintro ⟨latencyMs, h⟩ -
      obtain ⟨sendTime, hread, -⟩ := bind_eq_ok.mp h
      exact (List.getElem?_eq_some_iff.mp (readAt_eq_ok.mp hread)).1
    · intro h
      rw [readAt_of_lt _ (h h5), ok_bind]
      exact ⟨_, rfl⟩
  · exact iff_of_true ⟨none, if_neg h5⟩ (absurd · h5)

/-- The copy into the message: without room for the FCS the length wraps. -/
theorem payload_valid_iff {headerLen : ℕ} (hle : cap.length ≤ len) (h32 : len < 4294967296)
    (hlen : headerLen ≤ len) (hvalid : radiotapIteratorInit cap len = .ok true) :
    (∃ data?, payload cap len headerLen = .ok data? ∧ ∀ data, data? = some data →
      headerLen + 4 ≤ len ∧ data.length = len - headerLen - 4) ↔
    headerLen + 4 = len ∨ headerLen + 4 ≤ len ∧ len ≤ cap.length + 4 := by
  rw [payload, if_neg (Nat.not_lt.mpr hlen), hvalid, ok_bind, if_pos rfl]
  by_cases hroom : headerLen + 4 ≤ len
  · have hpacket : (len + 4294967296 - (headerLen + 4)) % 4294967296 = len - headerLen - 4 := by
      rw [show len + 4294967296 - (headerLen + 4) = len - headerLen - 4 + 4294967296 by omega,
        Nat.add_mod_right, Nat.mod_eq_of_lt (by omega)]
    simp only [hpacket]
    by_cases hcut : len - headerLen - 4 ≠ 0 ∧ cap.length < headerLen + (len - headerLen - 4)
    · rw [if_pos hcut]
      refine iff_of_false ?_ (by omega)
      rintro ⟨data, h, -⟩
      cases h
    · rw [if_neg hcut]
      refine iff_of_true ⟨_, rfl, fun data hdata ↦ ⟨hroom, ?_⟩⟩ (by omega)
      rw [← Option.some_inj.mp hdata, List.length_take, List.length_drop]
      omega
  · have hpacket : (len + 4294967296 - (headerLen + 4)) % 4294967296 =
        len + 4294967296 - (headerLen + 4) := Nat.mod_eq_of_lt (by omega)
    simp only [hpacket]
    rw [if_pos (by omega)]
    refine iff_of_false ?_ (by omega)
    rintro ⟨data?, h, -⟩
    cases h

/-- What comes after the reads of the 802.11 header. -/
theorem payload_inBounds_iff {rt n : ℕ} (hle : cap.length ≤ len) (h32 : len < 4294967296)
    (hrt : readLe16 cap 2 = .ok rt) (hcap : rt ≤ cap.length) :
    (∃ data?, payload cap len (rt + n) = .ok data? ∧ ∀ data, data? = some data →
      rt + n + 4 ≤ len ∧ data.length = len - (rt + n) - 4) ↔
    (rt + n ≤ len → FixedPartCaptured cap len ∧
      (radiotapIteratorInit cap len = .ok true →
        rt + n + 4 = len ∨ rt + n + 4 ≤ len ∧ len ≤ cap.length + 4)) := by
  by_cases hlen : rt + n ≤ len
  · simp only [hlen, true_imp_iff]
    rw [← radiotapIteratorInit_ok_iff hrt hcap (by omega)]
    cases hinit : radiotapIteratorInit cap len with
    | error e =>
        rw [payload, if_neg (Nat.not_lt.mpr hlen), hinit, error_bind]
        refine iff_of_false ?_ ?_
        · rintro ⟨_, h, -⟩
          cases h
        · rintro ⟨⟨_, h⟩, -⟩
          cases h
    | ok valid =>
        cases valid with
        | false =>
            rw [payload, if_neg (Nat.not_lt.mpr hlen), hinit, ok_bind]
            exact iff_of_true ⟨none, rfl, by simp⟩ ⟨⟨false, rfl⟩, by simp⟩
        | true =>
            simp only [Except.ok.injEq, exists_eq', true_and, true_imp_iff]
            exact payload_valid_iff hle h32 hlen hinit
  · rw [payload, if_pos (Nat.not_le.mp hlen)]
    exact iff_of_true ⟨none, rfl, by simp⟩ (absurd · hlen)

/-- A frame is received in bounds if what has to be captured of it is. -/
theorem inBounds_iff (curTime : ℕ) (ground : Bool)
    (hfilter : captureFilter ground cap = true) (hle : cap.length ≤ len) (h32 : len < 4294967296) :
    InBounds curTime cap len ↔ Captured cap len := by
  obtain ⟨rt, b, n, linkType, hrt, hfive, hb, hkind, hlengths⟩ := captureFilter_spec hfilter
  have hkindRead : readAt .bytes cap (rt + 1) = (.ok b : Except Fault UInt8) := readAt_eq_ok.mpr hb
  have hport : readAt .bytes cap (rt + 4) = (.ok cap[rt + 4] : Except Fault UInt8) :=
    readAt_of_lt _ (by omega)
  have hunfold : receive curTime (.frame cap len) = (do
      let latencyMs ← latency curTime cap rt n
      let data? ← payload cap len (rt + n)
      .ok (data?.map fun data ↦
        { data, port := (cap[rt + 4] >>> 4).toNat, linkType, latencyMs })) := by
    rw [receive, receiveFrame, hrt, ok_bind, hkindRead, ok_bind, hkind]
    simp only [hport, ok_bind]
  rw [InBounds, Captured, hunfold]
  simp only [hlengths, Option.some_inj, Prod.mk.injEq]
  constructor
  · rintro ⟨r, hr, hmsg⟩
    obtain ⟨latencyMs, hlatency, hr⟩ := bind_eq_ok.mp hr
    obtain ⟨data?, hpayload, hr⟩ := bind_eq_ok.mp hr
    cases hr
    refine ⟨rt, n, ⟨rfl, rfl⟩, latency_ok_iff.mp ⟨_, hlatency⟩,
      (payload_inBounds_iff hle h32 hrt (by omega)).mp ⟨_, hpayload, ?_⟩⟩
    rintro data rfl
    obtain ⟨_, _, ⟨rfl, rfl⟩, hroom, hdata⟩ := hmsg _ rfl
    exact ⟨hroom, by simpa only [Nat.sub_sub, Nat.add_assoc] using hdata⟩
  · rintro ⟨_, _, ⟨rfl, rfl⟩, htime, hrest⟩
    obtain ⟨latencyMs, hlatency⟩ := latency_ok_iff.mpr htime
    obtain ⟨data?, hpayload, hdata⟩ := (payload_inBounds_iff hle h32 hrt (by omega)).mpr hrest
    rw [hlatency, ok_bind, hpayload, ok_bind]
    refine ⟨_, rfl, fun msg hmsg ↦ ⟨rt, n, ⟨rfl, rfl⟩, ?_⟩⟩
    obtain ⟨data, hsome, rfl⟩ := Option.map_eq_some_iff.mp hmsg
    obtain ⟨hroom, hlength⟩ := hdata data hsome
    exact ⟨hroom, by simpa only [Nat.sub_sub, Nat.add_assoc] using hlength⟩

/-- A whole capture of a short data frame of a bridge. -/
theorem inBounds_short :
    InBounds 7 [0, 0, 8, 0, 0, 0, 0, 0, 8, 1, 0, 0, 0x5d, 1, 2, 3, 9, 9, 9, 9] 20 := by
  refine (inBounds_iff 7 false (by decide) (by decide) (by decide)).mpr
    ⟨8, 5, by decide, by decide, fun _ ↦ ⟨.inl (by decide), fun _ ↦ .inr (by decide)⟩⟩

/-- A frame that ends with its header passes the filter, and is not received in bounds: the length
of the message is 4 below 0. -/
theorem not_inBounds_of_no_fcs :
    captureFilter false [0, 0, 8, 0, 0, 0, 0, 0, 8, 1, 0, 0, 0x0d] = true ∧
      ¬InBounds 7 [0, 0, 8, 0, 0, 0, 0, 0, 8, 1, 0, 0, 0x0d] 13 := by
  refine ⟨by decide, ?_⟩
  rintro ⟨r, hr, -⟩
  have hfault : receive 7 (.frame [0, 0, 8, 0, 0, 0, 0, 0, 8, 1, 0, 0, 0x0d] 13) =
      .error .bytes := by
    rfl
  rw [hfault] at hr
  cases hr

end InBounds

end RawReceiveSocket

end WfbBridge
