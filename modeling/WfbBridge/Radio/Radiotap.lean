import Mathlib
import WfbBridge.Radio.Bounds
import WfbBridge.Radio.Rssi

/-!
# The radiotap header is read inside

The iterator comes to an end on any header that `ieee80211_radiotap_iterator_init` accepts, and
`receive` reads nothing outside the header, unless field 18 is there.
-/

namespace WfbBridge

open Checked

namespace RadiotapIterator

/-! ## The iterator stays inside the header -/

/-- The `present` words of a header: `n` of them say that another one follows. -/
structure Words (buf : List UInt8) (maxLength n : ℕ) : Prop where
  ext : ∀ i < n, ∃ word, readLe32 buf (4 + 4 * i) = .ok word ∧ hasExt word = true
  last : ∃ word, readLe32 buf (4 + 4 * n) = .ok word ∧ hasExt word = false
  inside : n = 0 ∨ 8 + 4 * n ≤ maxLength

/-- The bits of word `k` that are left are in the shifter, and a namespace is left behind only when
the place after it is known. -/
structure Inv (buf : List UInt8) (n : ℕ) (it : RadiotapIterator) : Prop where
  bitmap : ∃ k word, k ≤ n ∧ it.nextBitmap = 8 + 4 * k ∧ readLe32 buf (4 + 4 * k) = .ok word ∧
    it.bitmapShifter = word / 2 ^ (it.argIndex % 32)
  nextNsData : it.currentNamespace = false → ∃ arg, it.nextNsData = some arg

/-- The bits that are left, of this word and of the words that may follow. -/
def bitsLeft (it : RadiotapIterator) : ℕ :=
  8 * (it.maxLength - it.nextBitmap) + (32 - it.argIndex % 32)

theorem bitsLeft_lt_turns (it : RadiotapIterator) : it.bitsLeft < it.turns := by
  rw [bitsLeft, turns]
  omega

/-- An argument lies inside the header; a field has the size and the alignment of the table. -/
def Arg.Inside (maxLength : ℕ) (a : Arg) : Prop :=
  a.offset + a.size ≤ maxLength ∧ (a.index = 30 ∨
    ∃ align, rtapNamespaceSizes[a.index]? = some (align, a.size) ∧ align ≠ 0 ∧ align ∣ a.offset)

/-- Word `i` of the `present` words is `word`. -/
def PresentWord (buf : List UInt8) (i word : ℕ) : Prop :=
  (∀ j < i, ∃ word', readLe32 buf (4 + 4 * j) = .ok word' ∧ hasExt word' = true) ∧
    readLe32 buf (4 + 4 * i) = .ok word

/-- Field 18 is there. -/
def Has18 (buf : List UInt8) : Prop := ∃ i word, PresentWord buf i word ∧ word.testBit 18 = true

/-- What a turn, or a call, may do. -/
def Outcome (buf : List UInt8) (n : ℕ) (it : RadiotapIterator) :
    Except RadiotapFault (Option RadiotapNext × RadiotapIterator) → Prop
  | .error e => e = .uninitialized ∧ Has18 buf
  | .ok (none, it') => it'.Inv buf n ∧ it'.bitsLeft < it.bitsLeft ∧ it'.maxLength = it.maxLength
  | .ok (some .found, it') => it'.Inv buf n ∧ it'.bitsLeft < it.bitsLeft ∧
      it'.maxLength = it.maxLength ∧ it'.thisArgument.Inside it.maxLength
  | .ok (some _, _) => True

variable {buf : List UInt8} {n : ℕ} {it : RadiotapIterator}

@[simp] theorem mapError_ok {α : Type} (a : α) :
    (Except.ok a : Except Fault α).mapError RadiotapFault.access = .ok a := rfl

/-- The shifter moves to the next bit of the word. -/
theorem Inv.nextEntry (h : it.Inv buf n) (hlt : it.argIndex % 32 ≠ 31) :
    it.nextEntry.Inv buf n := by
  obtain ⟨⟨k, word, hk, hbitmap, hword, hshift⟩, hns⟩ := h
  refine ⟨⟨k, word, hk, hbitmap, hword, ?_⟩, hns⟩
  have hindex : (it.argIndex + 1) % 32 = it.argIndex % 32 + 1 := by omega
  change it.bitmapShifter / 2 = word / 2 ^ ((it.argIndex + 1) % 32)
  rw [hshift, hindex, pow_succ, Nat.div_div_eq_div_mul]

theorem bitsLeft_nextEntry (hlt : it.argIndex % 32 ≠ 31) : it.nextEntry.bitsLeft < it.bitsLeft := by
  change 8 * (it.maxLength - it.nextBitmap) + (32 - (it.argIndex + 1) % 32) < _
  rw [bitsLeft]
  omega

/-- When bit 31 of a word is set, there is another word. -/
theorem Inv.ext (h : it.Inv buf n) (hwords : Words buf it.maxLength n)
    (hindex : it.argIndex % 32 = 31) (hbit : it.bitmapShifter % 2 ≠ 0) :
    ∃ word, readLe32 buf it.nextBitmap = .ok word ∧ it.nextBitmap + 4 ≤ it.maxLength ∧
      ∀ it' : RadiotapIterator, it'.bitmapShifter = word → it'.nextBitmap = it.nextBitmap + 4 →
        it'.argIndex % 32 = 0 → (it'.currentNamespace = false → ∃ arg, it'.nextNsData = some arg) →
        it'.Inv buf n := by
  obtain ⟨⟨k, word, hk, hbitmap, hword, hshift⟩, -⟩ := h
  have hext : hasExt word = true := by
    rw [hshift, hindex] at hbit
    rw [hasExt, decide_eq_true_eq]
    omega
  have hlt : k < n := by
    refine lt_of_le_of_ne hk fun heq ↦ ?_
    obtain ⟨last, hlast, hnot⟩ := hwords.last
    rw [← heq, hword] at hlast
    rw [← Except.ok.inj hlast, hext] at hnot
    cases hnot
  have hnext : ∃ word', readLe32 buf (4 + 4 * (k + 1)) = .ok word' := by
    rcases Nat.lt_or_ge (k + 1) n with hlt' | hge
    · obtain ⟨word', hword', -⟩ := hwords.ext (k + 1) hlt'
      exact ⟨word', hword'⟩
    · obtain ⟨word', hword', -⟩ := hwords.last
      rw [show k + 1 = n by omega]
      exact ⟨word', hword'⟩
  obtain ⟨word', hword'⟩ := hnext
  have hplace : it.nextBitmap = 4 + 4 * (k + 1) := by omega
  refine ⟨word', hplace ▸ hword', ?_, ?_⟩
  · rcases hwords.inside with h0 | hle <;> omega
  · intro it' hshift' hbitmap' hindex' hns'
    refine ⟨⟨k + 1, word', hlt, by omega, hword', ?_⟩, hns'⟩
    rw [hshift', hindex', pow_zero, Nat.div_one]

/-- What is returned when an argument has been visited. -/
theorem outcome_visit (h : it.Inv buf n) (hwords : Words buf it.maxLength n) {size : ℕ}
    (hbit : it.bitmapShifter % 2 ≠ 0)
    (hfield : it.argIndex % 32 ≠ 29 → it.argIndex % 32 ≠ 30 → it.argIndex % 32 ≠ 31 →
      ∃ align, rtapNamespaceSizes[it.argIndex]? = some (align, size) ∧ align ≠ 0 ∧ align ∣ it.arg) :
    Outcome buf n it (it.visit buf size) := by
  rw [visit]
  by_cases hlength : it.maxLength < it.arg + size
  · rw [if_pos hlength]
    trivial
  rw [if_neg hlength]
  have hinside := Nat.le_of_not_lt hlength
  by_cases h30 : it.argIndex % 32 = 30
  · have hlt : it.argIndex % 32 ≠ 31 := by omega
    simp only [if_pos h30]
    exact ⟨Inv.nextEntry ⟨h.bitmap, h.nextNsData⟩ hlt, bitsLeft_nextEntry hlt, rfl, hinside,
      .inl rfl⟩
  by_cases h29 : it.argIndex % 32 = 29
  · have hlt : it.argIndex % 32 ≠ 31 := by omega
    simp only [if_neg h30, if_pos h29]
    exact ⟨Inv.nextEntry ⟨h.bitmap, fun hns ↦ by cases hns⟩ hlt, bitsLeft_nextEntry hlt, rfl⟩
  by_cases h31 : it.argIndex % 32 = 31
  · obtain ⟨word, hword, hroom, hinv⟩ := h.ext hwords h31 hbit
    simp only [if_neg h30, if_neg h29, if_pos h31, hword, mapError_ok, ok_bind]
    have hindex : (if it.resetOnExt = true then 0 else it.argIndex + 1) % 32 = 0 := by
      split <;> omega
    refine ⟨hinv _ rfl rfl hindex h.nextNsData, ?_, rfl⟩
    simp only [bitsLeft, hindex]
    omega
  · simp only [if_neg h30, if_neg h29, if_neg h31]
    exact ⟨Inv.nextEntry ⟨h.bitmap, h.nextNsData⟩ h31, bitsLeft_nextEntry h31, rfl, hinside,
      .inr (hfield h29 h30 h31)⟩

theorem pad_spec (it : RadiotapIterator) (align : ℕ) :
    ∃ arg, it.pad align = { it with arg } ∧ (align ≠ 0 → align ∣ arg) := by
  rw [pad]
  by_cases hpad : it.arg % align = 0
  · rw [if_pos hpad]
    exact ⟨it.arg, rfl, fun _ ↦ Nat.dvd_of_mod_eq_zero hpad⟩
  · rw [if_neg hpad]
    refine ⟨_, rfl, fun hne ↦ ?_⟩
    have hlt := Nat.mod_lt it.arg (Nat.pos_of_ne_zero hne)
    have hsum : it.arg + (align - it.arg % align) = align * (it.arg / align + 1) := by
      have := Nat.div_add_mod it.arg align
      rw [Nat.mul_add, Nat.mul_one]
      omega
    rw [hsum]
    exact Nat.dvd_mul_right _ _

/-- A field that is skipped in the radiotap namespace is field 18. -/
theorem skip_eq_18 (hradiotap : it.currentNamespace = true) (h : it.entry = .skip) :
    it.argIndex = 18 := by
  rw [entry] at h
  split at h
  · cases h
  split at h
  · cases h
  cases hsize : rtapNamespaceSizes[it.argIndex]? with
  | none =>
      rw [hsize] at h
      cases h
  | some p =>
      rw [hsize] at h
      have hzero : p.1 = 0 := by
        by_contra hne
        simp only [if_neg hne] at h
        cases h
      have hlt : it.argIndex < 23 := (List.getElem?_eq_some_iff.mp hsize).1
      have hall : ∀ i < 23, ∀ p ∈ rtapNamespaceSizes[i]?, p.1 = 0 → i = 18 := by decide
      exact hall _ hlt p hsize hzero

/-- The size of a field comes from the table. -/
theorem sized_eq {align size : ℕ} (h29 : it.argIndex % 32 ≠ 29) (h30 : it.argIndex % 32 ≠ 30)
    (h31 : it.argIndex % 32 ≠ 31) (h : it.entry = .sized align size) :
    rtapNamespaceSizes[it.argIndex]? = some (align, size) ∧ align ≠ 0 := by
  rw [entry, if_neg (not_or.mpr ⟨h29, h31⟩), if_neg h30] at h
  split at h
  case isFalse => cases h
  case isTrue =>
    cases hsize : rtapNamespaceSizes[it.argIndex]? with
    | none =>
        rw [hsize] at h
        cases h
    | some p =>
        obtain ⟨a, s⟩ := p
        rw [hsize] at h
        by_cases hzero : a = 0
        · simp only [if_pos hzero] at h
          cases h
        · simp only [if_neg hzero] at h
          obtain ⟨rfl, rfl⟩ := Entry.sized.inj h
          exact ⟨rfl, hzero⟩

/-- One turn. -/
theorem outcome_turn (h : it.Inv buf n) (hwords : Words buf it.maxLength n)
    (hcap : it.maxLength ≤ buf.length) : Outcome buf n it (it.turn buf) := by
  rw [turn]
  by_cases hend : it.argIndex % 32 = 31 ∧ it.bitmapShifter % 2 = 0
  · rw [if_pos hend]
    trivial
  rw [if_neg hend]
  by_cases hbit : it.bitmapShifter % 2 = 0
  · rw [if_pos hbit]
    have hlt : it.argIndex % 32 ≠ 31 := fun h31 ↦ hend ⟨h31, hbit⟩
    exact ⟨h.nextEntry hlt, bitsLeft_nextEntry hlt, rfl⟩
  rw [if_neg hbit]
  cases hentry : it.entry with
  | stop => trivial
  | skip =>
      have hlt : it.argIndex % 32 ≠ 31 := by
        rintro h31
        rw [entry, if_pos (.inr h31)] at hentry
        cases hentry
      cases hns : it.nextNsData with
      | some arg =>
          exact ⟨Inv.nextEntry ⟨h.bitmap, fun _ ↦ ⟨arg, rfl⟩⟩ hlt, bitsLeft_nextEntry hlt, rfl⟩
      | none =>
          have hradiotap : it.currentNamespace = true := by
            by_contra hfalse
            obtain ⟨arg, harg⟩ := h.nextNsData (Bool.eq_false_iff.mpr hfalse)
            rw [hns] at harg
            cases harg
          have h18 : it.argIndex = 18 := skip_eq_18 hradiotap hentry
          obtain ⟨k, word, hk, -, hword, hshift⟩ := h.bitmap
          refine ⟨rfl, k, word, ⟨fun j hj ↦ hwords.ext j (by omega), hword⟩, ?_⟩
          rw [h18] at hshift
          change it.bitmapShifter = word / 2 ^ 18 at hshift
          rw [Nat.testBit_eq_decide_div_mod_eq, decide_eq_true_eq]
          rw [hshift] at hbit
          omega
  | sized align size =>
      obtain ⟨arg, hpad, hdvd⟩ := it.pad_spec align
      simp only [sized, hpad]
      by_cases h30 : it.argIndex % 32 = 30
      · simp only [if_pos h30]
        by_cases hlength : it.maxLength < arg + size
        · rw [if_pos hlength]
          trivial
        · rw [if_neg hlength]
          have hsize : size = 6 := by
            rw [entry, if_neg (by omega), if_pos h30] at hentry
            exact (Entry.sized.inj hentry).2.symm
          have hread : ∀ i < 6, ∃ b, readAt Fault.bytes buf (arg + i) = .ok b := fun i hi ↦
            ⟨_, readAt_of_lt _ (by omega)⟩
          obtain ⟨b₀, h₀⟩ := hread 0 (by decide)
          obtain ⟨b₁, h₁⟩ := hread 1 (by decide)
          obtain ⟨b₂, h₂⟩ := hread 2 (by decide)
          obtain ⟨b₃, h₃⟩ := hread 3 (by decide)
          obtain ⟨vnslen, hvnslen⟩ :=
            RawReceiveSocket.readLe16_ok (show arg + 4 + 2 ≤ buf.length by omega)
          have houi : [0, 1, 2].mapM (fun i ↦ readAt Fault.bytes buf (arg + i)) =
              .ok [b₀, b₁, b₂] := by
            simp only [List.mapM_cons, List.mapM_nil, h₀, h₁, h₂, ok_bind]
            rfl
          simp only [houi, h₃, hvnslen, mapError_ok, ok_bind]
          exact @outcome_visit buf n { it with
            arg, currentNamespace := false, nextNsData := some (arg + size + vnslen) }
            ⟨h.bitmap, fun _ ↦ ⟨_, rfl⟩⟩ hwords _ hbit fun _ h30' _ ↦ absurd h30 h30'
      · simp only [if_neg h30]
        refine @outcome_visit buf n { it with arg } ⟨h.bitmap, h.nextNsData⟩ hwords _ hbit fun h29 _
          h31 ↦ ?_
        obtain ⟨hsize, hne⟩ := sized_eq h29 h30 h31 hentry
        exact ⟨align, hsize, hne, hdvd hne⟩

/-- One call returns. -/
theorem outcome_next (hwords : Words buf it.maxLength n) (hcap : it.maxLength ≤ buf.length)
    (turns : ℕ) (h : it.Inv buf n) (hturns : it.bitsLeft < turns) :
    Outcome buf n it (next buf turns it) ∧ ∀ it', next buf turns it ≠ .ok (none, it') := by
  induction turns generalizing it with
  | zero => exact absurd hturns (Nat.not_lt_zero _)
  | succ turns ih =>
      have hturn := outcome_turn h hwords hcap
      rw [next]
      generalize it.turn buf = res at hturn ⊢
      rcases res with e | ⟨_ | r, it'⟩
      · exact ⟨hturn, fun _ heq ↦ by cases heq⟩
      · obtain ⟨hinv, hless, hmax⟩ := hturn
        obtain ⟨hnext, hnone⟩ := ih (hmax ▸ hwords) (hmax ▸ hcap) hinv (by omega)
        simp only [ok_bind]
        refine ⟨?_, hnone⟩
        generalize next buf turns it' = res at hnext hnone ⊢
        rcases res with e | ⟨_ | _ | _ | _, it''⟩
        · exact hnext
        · exact absurd rfl (hnone it'')
        · obtain ⟨hinv', hless', hmax', harg⟩ := hnext
          exact ⟨hinv', hless'.trans hless, hmax'.trans hmax, hmax ▸ harg⟩
        · trivial
        · trivial
      · exact ⟨hturn, fun _ heq ↦ by cases heq⟩

/-- The loop comes to an end, with arguments inside the header. -/
def LoopOutcome (buf : List UInt8) (maxLength : ℕ) :
    Except RadiotapFault (List Arg × Option RadiotapNext) → Prop
  | .error e => e = .uninitialized ∧ Has18 buf
  | .ok (args, r) => (r = some .noent ∨ r = some .inval) ∧ ∀ a ∈ args, a.Inside maxLength

theorem outcome_loop (hwords : Words buf it.maxLength n) (hcap : it.maxLength ≤ buf.length)
    (fuel : ℕ) (h : it.Inv buf n) (hfuel : it.bitsLeft < fuel) :
    LoopOutcome buf it.maxLength (loop buf fuel it) := by
  induction fuel generalizing it with
  | zero => exact absurd hfuel (Nat.not_lt_zero _)
  | succ fuel ih =>
      obtain ⟨hnext, hnone⟩ := outcome_next hwords hcap it.turns h it.bitsLeft_lt_turns
      rw [loop]
      generalize next buf it.turns it = res at hnext hnone ⊢
      rcases res with e | ⟨_ | _ | _ | _, it'⟩
      · exact hnext
      · exact absurd rfl (hnone it')
      · obtain ⟨hinv, hless, hmax, harg⟩ := hnext
        have hloop := ih (hmax ▸ hwords) (hmax ▸ hcap) hinv (by omega)
        rw [hmax] at hloop
        simp only [ok_bind]
        generalize loop buf fuel it' = res at hloop ⊢
        rcases res with e | ⟨args, r⟩
        · exact hloop
        · exact ⟨hloop.1, List.forall_mem_cons.mpr ⟨harg, hloop.2⟩⟩
      · exact ⟨.inl rfl, by simp⟩
      · exact ⟨.inr rfl, by simp⟩

/-! ## The start -/

/-- The loop over the words ends at a word after which none follows. -/
theorem words_of_skipPresent {itLen fuel arg k : ℕ} (hk : 8 + 4 * k ≤ itLen)
    (hext : ∀ i < k, ∃ word, readLe32 buf (4 + 4 * i) = .ok word ∧ hasExt word = true)
    (h : skipPresent buf itLen fuel (4 + 4 * k) = .ok (some arg)) :
    ∃ n, Words buf itLen n ∧ k ≤ n ∧ arg = 8 + 4 * n := by
  induction fuel generalizing k with
  | zero => cases h
  | succ fuel ih =>
      rw [skipPresent] at h
      obtain ⟨word, hword, h⟩ := bind_eq_ok.mp h
      by_cases hmore : hasExt word = true
      · rw [if_pos hmore] at h
        split at h
        · cases h
        · have hext' : ∀ i < k + 1, ∃ word, readLe32 buf (4 + 4 * i) = .ok word ∧
              hasExt word = true := by
            intro i hi
            rcases Nat.lt_succ_iff_lt_or_eq.mp hi with hlt | rfl
            · exact hext i hlt
            · exact ⟨word, hword, hmore⟩
          obtain ⟨n, hwords, hkn, harg⟩ :=
            ih (by omega) hext' (by rwa [Nat.mul_add, ← Nat.add_assoc])
          exact ⟨n, hwords, by omega, harg⟩
      · rw [if_neg hmore] at h
        have harg := Option.some.inj (Except.ok.inj h)
        exact ⟨k, ⟨hext, ⟨word, hword, Bool.eq_false_iff.mpr hmore⟩, .inr hk⟩, le_rfl, by omega⟩

/-- The iterator after `init`. -/
theorem init_spec {cap : List UInt8} {len : ℕ} (h : init cap len = .ok (some it)) :
    readLe16 cap 2 = .ok it.maxLength ∧ it.maxLength ≤ len ∧
      ∃ n word, Words cap it.maxLength n ∧ readLe32 cap 4 = .ok word ∧
        it = { maxLength := it.maxLength, bitmapShifter := word, arg := 8 + 4 * n,
               thisArg := 8 + 4 * n } := by
  rw [init] at h
  split at h
  · cases h
  obtain ⟨version, -, h⟩ := bind_eq_ok.mp h
  split at h
  · cases h
  obtain ⟨itLen, hlen, h⟩ := bind_eq_ok.mp h
  split at h
  · cases h
  rename_i hle
  obtain ⟨word, hword, h⟩ := bind_eq_ok.mp h
  split at h
  case isTrue hmore =>
    split at h
    · cases h
    rename_i hroom
    obtain ⟨arg?, hskip, h⟩ := bind_eq_ok.mp h
    obtain ⟨arg, rfl, rfl⟩ := Option.map_eq_some_iff.mp (Except.ok.inj h)
    obtain ⟨n, hwords, -, rfl⟩ := words_of_skipPresent (k := 1) (by omega) (by
      intro i hi
      obtain rfl : i = 0 := by omega
      exact ⟨word, hword, hmore⟩) hskip
    exact ⟨hlen, Nat.le_of_not_lt hle, n, word, hwords, hword, rfl⟩
  case isFalse hlast =>
    obtain rfl := Option.some.inj (Except.ok.inj h)
    exact ⟨hlen, Nat.le_of_not_lt hle, 0, word,
      ⟨by simp, ⟨word, hword, Bool.eq_false_iff.mpr hlast⟩, .inl rfl⟩, hword, rfl⟩

/-! ## What `receive` reads -/

end RadiotapIterator

/-- The bytes of an argument that `receive` reads. -/
def RadiotapArg.read (cap : List UInt8) (a : RadiotapIterator.Arg) : Except Fault RadiotapArg :=
  match a.index with
  | 1 => do .ok (.flags (← readAt .bytes cap a.offset))
  | 2 => do .ok (.rate (← readAt .bytes cap a.offset))
  | 3 => do
      .ok (.channel (.ofNat (← readLe16 cap a.offset))
        (.ofNat (← readLe16 cap (a.offset + 2))))
  | 5 => do .ok (.dbmAntsignal (← readAt .bytes cap a.offset))
  | 7 => do .ok (.lockQuality (.ofNat (← readLe16 cap a.offset)))
  | 11 => do .ok (.antenna (← readAt .bytes cap a.offset))
  | _ => .ok .other

/-- The loop of `receive` over the arguments. -/
def RadiotapInfo.readHeader (msg : RadiotapInfo) (cap : List UInt8) (it : RadiotapIterator) :
    Except RadiotapFault RadiotapInfo := do
  let (args, _) ← it.args cap
  let args ← (args.mapM (RadiotapArg.read cap)).mapError .access
  .ok (msg.readArgs args)

namespace RadiotapIterator

/-- The sizes of the fields that `receive` reads. -/
theorem size_of_read {index align size : ℕ} (h : rtapNamespaceSizes[index]? = some (align, size)) :
    (index = 1 ∨ index = 2 ∨ index = 5 ∨ index = 11 → size = 1) ∧ (index = 3 → size = 4) ∧
      (index = 7 → size = 2) := by
  have hall : ∀ i < 23, ∀ p ∈ rtapNamespaceSizes[i]?, (i = 1 ∨ i = 2 ∨ i = 5 ∨ i = 11 → p.2 = 1) ∧
      (i = 3 → p.2 = 4) ∧ (i = 7 → p.2 = 2) := by decide
  exact hall index (List.getElem?_eq_some_iff.mp h).1 _ h

/-- An argument inside the header is read inside it. -/
theorem Arg.Inside.read {cap : List UInt8} {maxLength : ℕ} {a : Arg} (h : a.Inside maxLength)
    (hcap : maxLength ≤ cap.length) : ∃ arg, RadiotapArg.read cap a = .ok arg := by
  obtain ⟨hinside, hindex⟩ := h
  obtain ⟨index, offset, size⟩ := a
  have hread : ∀ i < size, ∃ b, readAt Fault.bytes cap (offset + i) = .ok b := fun i hi ↦
    ⟨_, readAt_of_lt _ (by simp only at hinside; omega)⟩
  have hread16 : ∀ i, i + 2 ≤ size → ∃ v, readLe16 cap (offset + i) = .ok v := fun i hi ↦
    RawReceiveSocket.readLe16_ok (by simp only at hinside; omega)
  rw [RadiotapArg.read]
  rcases hindex with hindex | ⟨align, hsize, -⟩
  · simp only at hindex
    subst hindex
    exact ⟨_, rfl⟩
  · simp only at hsize
    obtain ⟨h1, h4, h2⟩ := size_of_read hsize
    simp only
    split
    case h_7 => exact ⟨_, rfl⟩
    case h_3 =>
      obtain ⟨v, hv⟩ := hread16 0 (by rw [h4 rfl]; omega)
      obtain ⟨w, hw⟩ := hread16 2 (by rw [h4 rfl])
      rw [Nat.add_zero] at hv
      rw [hv, ok_bind, hw, ok_bind]
      exact ⟨_, rfl⟩
    case h_5 =>
      obtain ⟨v, hv⟩ := hread16 0 (by rw [h2 rfl])
      rw [Nat.add_zero] at hv
      rw [hv, ok_bind]
      exact ⟨_, rfl⟩
    all_goals
      obtain ⟨b, hb⟩ := hread 0 (by rw [h1 (by decide)]; decide)
      rw [Nat.add_zero] at hb
      rw [hb, ok_bind]
      exact ⟨_, rfl⟩

/-- Whatever the header says, the iterator comes to an end and everything that is read lies inside
the header, unless field 18 is there and the iterator goes on from a place that was never set. -/
theorem receive_reads_inside {cap : List UInt8} {len : ℕ} {it : RadiotapIterator}
    (hinit : init cap len = .ok (some it)) (hcap : it.maxLength ≤ cap.length) (msg : RadiotapInfo) :
    (∃ args r, it.args cap = .ok (args, some r) ∧ r ≠ .found ∧ (∀ a ∈ args, a.Inside it.maxLength) ∧
      ∃ info, msg.readHeader cap it = .ok info) ∨
    (msg.readHeader cap it = .error .uninitialized ∧ Has18 cap) := by
  obtain ⟨-, -, n, word, hwords, hword, hit⟩ := init_spec hinit
  have hinv : it.Inv cap n := by
    rw [hit]
    exact ⟨⟨0, word, Nat.zero_le _, rfl, hword, by simp⟩, fun hns ↦ by cases hns⟩
  have hloop := outcome_loop hwords hcap it.turns hinv it.bitsLeft_lt_turns
  rw [RadiotapInfo.readHeader]
  change LoopOutcome cap it.maxLength (it.args cap) at hloop
  generalize it.args cap = res at hloop ⊢
  rcases res with e | ⟨args, r⟩
  · obtain ⟨rfl, h18⟩ := hloop
    exact .inr ⟨rfl, h18⟩
  · obtain ⟨hr, hargs⟩ := hloop
    have hread : ∀ a ∈ args, ∃ arg, RadiotapArg.read cap a = .ok arg :=
      fun a ha ↦ (hargs a ha).read hcap
    have : Nonempty RadiotapArg := ⟨.other⟩
    choose! f hf using hread
    simp only [ok_bind, mapM_eq_ok hf]
    rcases hr with rfl | rfl
    · exact .inl ⟨args, .noent, rfl, by decide, hargs, _, rfl⟩
    · exact .inl ⟨args, .inval, rfl, by decide, hargs, _, rfl⟩

/-- The header of a frame from two antennas, with its rate, channel and signals. -/
def twoAntennas : List UInt8 :=
  [0, 0, 27, 0, 0x2e, 0, 0, 0xa0, 0x20, 8, 0, 0xa0, 0x20, 8, 0, 0, 0x10, 12, 0x6c, 9, 0xa0, 0, 206,
    200, 0, 206, 1]

/-- A header with field 18. -/
def withField18 : List UInt8 := [0, 0, 10, 0, 4, 0, 4, 0, 12, 0]

/-- The first header is read to its end, and the second one is not. -/
theorem receive_reads_inside_examples :
    (∃ it, init twoAntennas 27 = .ok (some it) ∧ ∃ info,
      ({} : RadiotapInfo).readHeader twoAntennas it = .ok info) ∧
    ∃ it, init withField18 10 = .ok (some it) ∧
      ({} : RadiotapInfo).readHeader withField18 it = .error .uninitialized ∧
        Has18 withField18 := by
  constructor
  · refine ⟨_, rfl, ?_⟩
    rcases receive_reads_inside (show init twoAntennas 27 = .ok (some _) from rfl) (by decide) {}
      with ⟨-, -, -, -, -, h⟩ | ⟨h, -⟩
    · exact h
    · exact absurd h (by decide +kernel)
  · refine ⟨_, rfl, ?_⟩
    rcases receive_reads_inside (show init withField18 10 = .ok (some _) from rfl) (by decide) {}
      with ⟨-, -, -, -, -, info, h⟩ | h
    · have hok : Except.isOk _ = true := congrArg Except.isOk h
      exact absurd hok (by decide +kernel)
    · exact h

end RadiotapIterator

end WfbBridge
