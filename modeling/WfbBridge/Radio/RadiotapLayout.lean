import Mathlib
import WfbBridge.Radio.Radiotap

/-!
# What a radiotap header says

The format of a radiotap header, from the side of a driver that writes it: one or more groups of
fields, a `present` word for each group, and the fields in the order of their bits, aligned from the
start of the header.  The iterator finds these fields and no others, whatever is in the padding, and
`receive` gets their values.
-/

namespace WfbBridge

open Checked

/-- A field of the radiotap namespace. -/
structure RadiotapField where
  index : ℕ
  align : ℕ
  data : List UInt8
  size_eq : rtapNamespaceSizes[index]? = some (align, data.length) := by rfl
  align_ne : align ≠ 0 := by decide

namespace RadiotapField

theorem index_lt (f : RadiotapField) : f.index < 23 := (List.getElem?_eq_some_iff.mp f.size_eq).1

/-- Two bytes of the data, in little endian. -/
def le16 (f : RadiotapField) (i : ℕ) : UInt16 :=
  .ofNat ((f.data.getD i 0).toNat + 256 * (f.data.getD (i + 1) 0).toNat)

/-- What the field says to `receive`. -/
def arg (f : RadiotapField) : RadiotapArg :=
  match f.index with
  | 1 => .flags (f.data.getD 0 0)
  | 2 => .rate (f.data.getD 0 0)
  | 3 => .channel (f.le16 0) (f.le16 2)
  | 5 => .dbmAntsignal (f.data.getD 0 0)
  | 7 => .lockQuality (f.le16 0)
  | 11 => .antenna (f.data.getD 0 0)
  | _ => .other

end RadiotapField

/-- The fields lie in `buf` one after the other, from `off` on,
each at the next place of its alignment. -/
inductive LaidOut (buf : List UInt8) : ℕ → List RadiotapField → ℕ → Prop
  | nil (off : ℕ) : LaidOut buf off [] off
  | cons {off stop : ℕ} {f : RadiotapField} {fs : List RadiotapField} (gap : ℕ)
      (hgap : gap < f.align) (hdvd : f.align ∣ off + gap)
      (hdata : ∀ i < f.data.length, buf[off + gap + i]? = f.data[i]?)
      (hrest : LaidOut buf (off + gap + f.data.length) fs stop) : LaidOut buf off (f :: fs) stop

/-- The `present` word of a group with these fields; `more` says that another group follows. -/
structure PresentBits (word : ℕ) (indices : List ℕ) (more : Bool) : Prop where
  fields : ∀ i < 29, word.testBit i = true ↔ i ∈ indices
  radiotapNamespace : word.testBit 29 = more
  vendorNamespace : word.testBit 30 = false
  ext : word.testBit 31 = more

instance (word : ℕ) (indices : List ℕ) (more : Bool) : Decidable (PresentBits word indices more) :=
  decidable_of_iff ((∀ i < 29, word.testBit i = true ↔ i ∈ indices) ∧
      word.testBit 29 = more ∧ word.testBit 30 = false ∧ word.testBit 31 = more)
    ⟨fun ⟨h, h29, h30, h31⟩ ↦ ⟨h, h29, h30, h31⟩, fun ⟨h, h29, h30, h31⟩ ↦ ⟨h, h29, h30, h31⟩⟩

/-- A radiotap header with these groups of fields. -/
structure RadiotapLayout (rt : List UInt8) (groups : List (List RadiotapField)) : Prop where
  version : readAt .bytes rt 0 = (.ok 0 : Except Fault UInt8)
  length : readLe16 rt 2 = .ok rt.length
  groups_ne : groups ≠ []
  sorted : ∀ g ∈ groups, (g.map RadiotapField.index).Pairwise (· < ·)
  words : ∀ (k : ℕ) (g : List RadiotapField), groups[k]? = some g →
    ∃ word, readLe32 rt (4 + 4 * k) = .ok word ∧
      PresentBits word (g.map RadiotapField.index) (decide (k + 1 < groups.length))
  fields : ∃ stop, LaidOut rt (4 + 4 * groups.length) groups.flatten stop ∧ stop ≤ rt.length

/-- The place of a field. -/
structure RadiotapIterator.Arg.IsField (buf : List UInt8) (f : RadiotapField) (a : Arg) : Prop where
  index : a.index = f.index
  size : a.size = f.data.length
  data : ∀ i < f.data.length, buf[a.offset + i]? = f.data[i]?

namespace LaidOut

variable {buf : List UInt8} {off stop : ℕ} {fs : List RadiotapField}

theorem le (h : LaidOut buf off fs stop) : off ≤ stop := by
  induction h with
  | nil => exact le_rfl
  | cons gap _ _ _ _ ih => omega

/-- What follows the header does not matter. -/
theorem append (h : LaidOut buf off fs stop) (rest : List UInt8) :
    LaidOut (buf ++ rest) off fs stop := by
  induction h with
  | nil => exact .nil _
  | cons gap hgap hdvd hdata _ ih =>
      refine .cons gap hgap hdvd (fun i hi ↦ ?_) ih
      have hbyte := hdata i hi
      rw [List.getElem?_eq_getElem hi] at hbyte ⊢
      rw [List.getElem?_append_left (List.getElem?_eq_some_iff.mp hbyte).1, hbyte]

end LaidOut

namespace RadiotapIterator

variable {buf : List UInt8} {groups : List (List RadiotapField)} {it : RadiotapIterator}
  {fs rem : List RadiotapField}

/-- The padding is the gap. -/
theorem pad_eq {gap align : ℕ} (hgap : gap < align) (hdvd : align ∣ it.arg + gap) :
    it.pad align = { it with arg := it.arg + gap } := by
  obtain ⟨c, hc⟩ := hdvd
  rw [pad]
  by_cases hzero : gap = 0
  · have hmod : it.arg % align = 0 := by
      rw [show it.arg = align * c by omega]
      exact Nat.mul_mod_right _ _
    rw [if_pos hmod, hzero, Nat.add_zero]
  · have hpos : 0 < c := by
      rcases Nat.eq_zero_or_pos c with rfl | hpos
      · omega
      · exact hpos
    obtain ⟨c', rfl⟩ := Nat.exists_eq_add_one.mpr hpos
    have harg : it.arg = align - gap + align * c' := by
      rw [Nat.mul_add, Nat.mul_one] at hc
      omega
    have hmod : it.arg % align = align - gap := by
      rw [harg, Nat.add_mul_mod_self_left, Nat.mod_eq_of_lt (by omega)]
    rw [if_neg (by omega), hmod, show align - (align - gap) = gap by omega]

/-- The iterator in group `k`, with the fields `fs` of the group and those
of the groups after it left. -/
structure At (buf : List UInt8) (groups : List (List RadiotapField)) (k : ℕ)
    (fs : List RadiotapField) (it : RadiotapIterator) : Prop where
  lt : k < groups.length
  argIndex_lt : it.argIndex < 32
  nextBitmap : it.nextBitmap = 8 + 4 * k
  shifter : ∃ word, it.bitmapShifter = word / 2 ^ it.argIndex ∧
    (∀ i < 29, it.argIndex ≤ i → (word.testBit i = true ↔ i ∈ fs.map RadiotapField.index)) ∧
    word.testBit 29 = decide (k + 1 < groups.length) ∧ word.testBit 30 = false ∧
    word.testBit 31 = decide (k + 1 < groups.length)
  sorted : (fs.map RadiotapField.index).Pairwise (· < ·)
  le_index : ∀ f ∈ fs, it.argIndex ≤ f.index
  currentNamespace : it.currentNamespace = true
  resetOnExt : 29 < it.argIndex → k + 1 < groups.length → it.resetOnExt = true
  laid : ∃ stop, LaidOut buf it.arg (fs ++ (groups.drop (k + 1)).flatten) stop ∧ stop ≤ it.maxLength

/-- The bit that decides a turn. -/
theorem shifter_mod_two {word : ℕ} (h : it.bitmapShifter = word / 2 ^ it.argIndex) :
    it.bitmapShifter % 2 = if word.testBit it.argIndex then 1 else 0 := by
  rw [h, Nat.testBit_eq_decide_div_mod_eq]
  rcases Nat.mod_two_eq_zero_or_one (word / 2 ^ it.argIndex) with h' | h' <;> simp [h']

theorem shifter_nextEntry {word : ℕ} (h : it.bitmapShifter = word / 2 ^ it.argIndex) :
    it.nextEntry.bitmapShifter = word / 2 ^ it.nextEntry.argIndex := by
  change it.bitmapShifter / 2 = word / 2 ^ (it.argIndex + 1)
  rw [h, pow_succ, Nat.div_div_eq_div_mul]

variable {k : ℕ}

/-- No field is left when the special bits come. -/
theorem At.fields_nil (h : it.At buf groups k fs) (hge : 23 ≤ it.argIndex) : fs = [] := by
  refine List.eq_nil_iff_forall_not_mem.mpr fun f hf ↦ ?_
  have := h.le_index f hf
  have := f.index_lt
  omega

/-- A bit that is not set. -/
theorem At.skip (h : it.At buf groups k fs) (hlt : it.argIndex < 31)
    (hne : ∀ f ∈ fs, f.index ≠ it.argIndex) (hreset : it.argIndex = 29 → ¬k + 1 < groups.length) :
    it.nextEntry.At buf groups k fs := by
  obtain ⟨word, hshift, hfields, h29, h30, h31⟩ := h.shifter
  refine ⟨h.lt, ?_, h.nextBitmap, ⟨word, shifter_nextEntry hshift, ?_, h29, h30, h31⟩, h.sorted, ?_,
    h.currentNamespace, ?_, h.laid⟩
  · change it.argIndex + 1 < 32
    omega
  · exact fun i hi hle ↦ hfields i hi ((Nat.le_succ _).trans hle)
  · exact fun f hf ↦ lt_of_le_of_ne (h.le_index f hf) (hne f hf).symm
  · intro hgt hmore
    change 29 < it.argIndex + 1 at hgt
    by_cases heq : it.argIndex = 29
    · exact absurd hmore (hreset heq)
    · exact h.resetOnExt (by omega) hmore

/-- A turn at a bit that is not set. -/
theorem turn_unset (hlt : it.argIndex < 31) (hbit : it.bitmapShifter % 2 = 0) :
    it.turn buf = .ok (none, it.nextEntry) := by
  rw [turn, if_neg (by omega), if_pos hbit]

/-- A turn at a bit that is set. -/
theorem turn_set {align size : ℕ} (hbit : it.bitmapShifter % 2 = 1)
    (hentry : it.entry = .sized align size) :
    it.turn buf = it.sized buf align size := by
  rw [turn, if_neg (by omega), if_neg (by omega), hentry]

/-- A field that lies inside the header is returned. -/
theorem visit_field {size : ℕ} (hroom : it.arg + size ≤ it.maxLength) (hlt : it.argIndex < 29) :
    it.visit buf size = .ok (some .found, { it with
      thisArgIndex := it.argIndex
      thisArg := it.arg
      thisArgSize := size
      arg := it.arg + size }.nextEntry) := by
  have h29 : it.argIndex % 32 ≠ 29 := by omega
  have h30 : it.argIndex % 32 ≠ 30 := by omega
  have h31 : it.argIndex % 32 ≠ 31 := by omega
  rw [visit, if_neg (Nat.not_lt.mpr hroom), if_neg h30, if_neg h29, if_neg h31]

/-- The next field is found. -/
theorem turn_field {f : RadiotapField} (h : it.At buf groups k (f :: fs))
    (hindex : f.index = it.argIndex) :
    ∃ it', it.turn buf = .ok (some .found, it') ∧ it'.At buf groups k fs ∧
      it'.maxLength = it.maxLength ∧ it'.bitsLeft < it.bitsLeft ∧
        it'.thisArgument.IsField buf f := by
  have hlt := f.index_lt
  obtain ⟨word, hshift, hfields, h29, h30, h31⟩ := h.shifter
  have hbit : it.bitmapShifter % 2 = 1 := by
    rw [shifter_mod_two hshift,
      if_pos ((hfields it.argIndex (by omega) le_rfl).mpr (by simp [hindex]))]
  have hentry : it.entry = .sized f.align f.data.length := by
    rw [entry, if_neg (by omega), if_neg (by omega), if_pos h.currentNamespace, ← hindex, f.size_eq]
    exact if_neg f.align_ne
  obtain ⟨stop, hlaid, hstop⟩ := h.laid
  rw [List.cons_append] at hlaid
  cases hlaid with
  | cons gap hgap hdvd hdata hrest =>
      have hle := hrest.le
      have h30' : it.argIndex % 32 ≠ 30 := by omega
      have h31' : it.argIndex % 32 ≠ 31 := by omega
      rw [turn_set hbit hentry, sized, pad_eq hgap hdvd, if_neg h30',
        @visit_field buf { it with arg := it.arg + gap } _ (hle.trans hstop)
          (by rw [← hindex]; omega)]
      refine ⟨_, rfl, ?_, rfl, bitsLeft_nextEntry h31', hindex.symm, rfl, hdata⟩
      have hsorted := h.sorted
      rw [List.map_cons, List.pairwise_cons] at hsorted
      have hgt : ∀ f' ∈ fs, f.index < f'.index := fun f' hf' ↦
        hsorted.1 f'.index (List.mem_map_of_mem hf')
      refine ⟨h.lt, ?_, h.nextBitmap, ⟨word, shifter_nextEntry hshift, ?_, h29, h30, h31⟩,
        hsorted.2, ?_, h.currentNamespace, ?_, stop, hrest, hstop⟩
      · change it.argIndex + 1 < 32
        omega
      · intro i hi hle'
        change it.argIndex + 1 ≤ i at hle'
        rw [hfields i hi (by omega), List.map_cons, List.mem_cons, or_iff_right (by omega)]
      · intro f' hf'
        have := hgt f' hf'
        change it.argIndex + 1 ≤ f'.index
        omega
      · intro hgt'
        change 29 < it.argIndex + 1 at hgt'
        omega

/-- The words of the groups. -/
def GroupWords (buf : List UInt8) (groups : List (List RadiotapField)) : Prop :=
  ∀ (k : ℕ) (g : List RadiotapField), groups[k]? = some g →
    (g.map RadiotapField.index).Pairwise (· < ·) ∧
    ∃ word, readLe32 buf (4 + 4 * k) = .ok word ∧
      PresentBits word (g.map RadiotapField.index) (decide (k + 1 < groups.length))

/-- The iterator at the start of a group. -/
theorem at_group (hwords : GroupWords buf groups) {g : List RadiotapField}
    (hg : groups[k]? = some g) (hindex : it.argIndex = 0) (hbitmap : it.nextBitmap = 8 + 4 * k)
    (hshifter : readLe32 buf (4 + 4 * k) = .ok it.bitmapShifter) (hns : it.currentNamespace = true)
    (hlaid : ∃ stop, LaidOut buf it.arg (g ++ (groups.drop (k + 1)).flatten) stop ∧
      stop ≤ it.maxLength) :
    it.At buf groups k g := by
  obtain ⟨hsorted, word, hword, hbits⟩ := hwords k g hg
  obtain rfl := Except.ok.inj (hword.symm.trans hshifter)
  refine ⟨(List.getElem?_eq_some_iff.mp hg).1, by omega, hbitmap, ⟨it.bitmapShifter, ?_, ?_,
    hbits.radiotapNamespace, hbits.vendorNamespace, hbits.ext⟩, hsorted,
    fun f _ ↦ by omega, hns, ?_, hlaid⟩
  · rw [hindex, pow_zero, Nat.div_one]
  · exact fun i hi _ ↦ hbits.fields i hi
  · intro hgt
    omega

/-- Bit 29: the next word starts with field 0 again. -/
theorem visit_namespace (hindex : it.argIndex = 29) (hroom : it.arg ≤ it.maxLength) :
    it.visit buf 0 = .ok (none, { it with
      thisArgIndex := it.argIndex
      thisArg := it.arg
      thisArgSize := 0
      resetOnExt := true
      currentNamespace := true
      isRadiotapNs := true }.nextEntry) := by
  have h29 : it.argIndex % 32 = 29 := by omega
  have h30 : it.argIndex % 32 ≠ 30 := by omega
  have hroom' : ¬it.maxLength < it.arg + 0 := Nat.not_lt.mpr hroom
  rw [visit, if_neg hroom', if_neg h30, if_pos h29]
  rfl

/-- Bit 31: the next word. -/
theorem visit_ext (hindex : it.argIndex = 31) (hroom : it.arg ≤ it.maxLength) {word : ℕ}
    (hword : readLe32 buf it.nextBitmap = .ok word) (hreset : it.resetOnExt = true) :
    it.visit buf 0 = .ok (none, { it with
      thisArgIndex := it.argIndex
      thisArg := it.arg
      thisArgSize := 0
      bitmapShifter := word
      nextBitmap := it.nextBitmap + 4
      argIndex := 0
      resetOnExt := false }) := by
  have h29 : it.argIndex % 32 ≠ 29 := by omega
  have h30 : it.argIndex % 32 ≠ 30 := by omega
  have h31 : it.argIndex % 32 = 31 := by omega
  have hroom' : ¬it.maxLength < it.arg + 0 := Nat.not_lt.mpr hroom
  rw [visit, if_neg hroom', if_neg h30, if_neg h29, if_pos h31]
  simp only [hword, mapError_ok, ok_bind, if_pos hreset]
  rfl

/-- A turn at one of the two special bits that say that another group follows. -/
theorem turn_special (hindex : it.argIndex = 29 ∨ it.argIndex = 31)
    (hbit : it.bitmapShifter % 2 = 1) :
    it.turn buf = it.visit buf 0 := by
  have hentry : it.entry = .sized 1 0 := if_pos (by omega)
  have hpad : it.pad 1 = it := if_pos (Nat.mod_one _)
  have h30 : it.argIndex % 32 ≠ 30 := by omega
  rw [turn_set hbit hentry, sized, hpad, if_neg h30]

/-- The turn goes on, with the same fields left. -/
def GoesOn (buf : List UInt8) (groups : List (List RadiotapField)) (k : ℕ) (fs : List RadiotapField)
    (it : RadiotapIterator) : Prop :=
  ∃ k' fs' it', it.turn buf = .ok (none, it') ∧ it'.At buf groups k' fs' ∧
    fs' ++ (groups.drop (k' + 1)).flatten = fs ++ (groups.drop (k + 1)).flatten ∧
    it'.maxLength = it.maxLength ∧ it'.bitsLeft < it.bitsLeft

/-- Nothing is at this bit. -/
theorem goesOn_unset (h : it.At buf groups k fs) (hlt : it.argIndex < 31)
    (hbit : it.bitmapShifter % 2 = 0) (hne : ∀ f ∈ fs, f.index ≠ it.argIndex)
    (hreset : it.argIndex = 29 → ¬k + 1 < groups.length) :
    it.GoesOn buf groups k fs := by
  have h31 : it.argIndex % 32 ≠ 31 := by omega
  exact ⟨k, fs, it.nextEntry, turn_unset hlt hbit, h.skip hlt hne hreset, rfl, rfl,
    bitsLeft_nextEntry h31⟩

/-- The radiotap namespace goes on in the next word. -/
theorem goesOn_namespace (h : it.At buf groups k []) (hindex : it.argIndex = 29)
    (hmore : k + 1 < groups.length) : it.GoesOn buf groups k [] := by
  obtain ⟨word, hshift, hfields, h29, h30, h31⟩ := h.shifter
  obtain ⟨stop, hlaid, hstop⟩ := h.laid
  have hbit : it.bitmapShifter % 2 = 1 := by
    rw [shifter_mod_two hshift, hindex, h29, decide_eq_true hmore]
    rfl
  have hlt : it.argIndex % 32 ≠ 31 := by omega
  refine ⟨k, [], _,
    (turn_special (.inl hindex) hbit).trans (visit_namespace hindex (hlaid.le.trans hstop)),
    ?_, rfl, rfl, bitsLeft_nextEntry hlt⟩
  refine ⟨h.lt, ?_, h.nextBitmap, ⟨word, shifter_nextEntry hshift, ?_, h29, h30, h31⟩,
    .nil, by simp, rfl, fun _ _ ↦ rfl, stop, hlaid, hstop⟩
  · change it.argIndex + 1 < 32
    omega
  · intro i hi hle
    change it.argIndex + 1 ≤ i at hle
    omega

/-- The next group starts. -/
theorem goesOn_ext (hwords : GroupWords buf groups) (hroom : 4 + 4 * groups.length ≤ it.maxLength)
    (h : it.At buf groups k []) (hindex : it.argIndex = 31) (hmore : k + 1 < groups.length) :
    it.GoesOn buf groups k [] := by
  obtain ⟨word, hshift, hfields, h29, h30, h31⟩ := h.shifter
  obtain ⟨stop, hlaid, hstop⟩ := h.laid
  have hbit : it.bitmapShifter % 2 = 1 := by
    rw [shifter_mod_two hshift, hindex, h31, decide_eq_true hmore]
    rfl
  have hg : groups[k + 1]? = some groups[k + 1] := List.getElem?_eq_getElem hmore
  have hdrop : (groups.drop (k + 1)).flatten =
      groups[k + 1] ++ (groups.drop (k + 1 + 1)).flatten := by
    rw [List.drop_eq_getElem_cons hmore, List.flatten_cons]
  have hbitmap : it.nextBitmap = 4 + 4 * (k + 1) := by
    rw [h.nextBitmap]
    omega
  obtain ⟨-, word', hword, -⟩ := hwords (k + 1) _ hg
  rw [← hbitmap] at hword
  rw [List.nil_append, hdrop] at hlaid
  refine ⟨k + 1, groups[k + 1], _, (turn_special (.inr hindex) hbit).trans
    (visit_ext hindex (hlaid.le.trans hstop) hword (h.resetOnExt (by omega) hmore)), ?_, hdrop.symm,
      rfl, ?_⟩
  · refine at_group hwords hg rfl ?_ (hbitmap ▸ hword) h.currentNamespace ⟨stop, hlaid, hstop⟩
    change it.nextBitmap + 4 = 8 + 4 * (k + 1)
    omega
  · change 8 * (it.maxLength - (it.nextBitmap + 4)) + (32 - 0 % 32) < _
    rw [bitsLeft, hindex, hbitmap]
    omega

/-- One turn: it goes on, it finds the next field, or no field is left. -/
theorem turn_at (hwords : GroupWords buf groups) (hroom : 4 + 4 * groups.length ≤ it.maxLength)
    (h : it.At buf groups k fs) :
    it.GoesOn buf groups k fs ∨
    (∃ f fs' it', fs = f :: fs' ∧ it.turn buf = .ok (some .found, it') ∧ it'.At buf groups k fs' ∧
      it'.maxLength = it.maxLength ∧ it'.bitsLeft < it.bitsLeft ∧ it'.thisArgument.IsField buf f) ∨
    (fs = [] ∧ k + 1 = groups.length ∧ it.turn buf = .ok (some .noent, it)) := by
  obtain ⟨word, hshift, hfields, h29, h30, h31⟩ := h.shifter
  have hbit := shifter_mod_two hshift
  have hlt32 := h.argIndex_lt
  have hk := h.lt
  rcases Nat.lt_or_ge it.argIndex 29 with hlt | hge
  · by_cases hmem : it.argIndex ∈ fs.map RadiotapField.index
    · -- it is the first of them
      obtain ⟨f, hf, hindex⟩ := List.mem_map.mp hmem
      cases fs with
      | nil => exact absurd hf List.not_mem_nil
      | cons f' fs =>
          have hf' : f'.index = it.argIndex := by
            refine le_antisymm ?_ (h.le_index f' List.mem_cons_self)
            have hsorted := h.sorted
            rw [List.map_cons, List.pairwise_cons] at hsorted
            rcases List.mem_cons.mp hf with rfl | hf
            · exact hindex.le
            · exact ((hsorted.1 f.index (List.mem_map_of_mem hf)).trans_eq hindex).le
          obtain ⟨it', hturn, hat, hmax, hless, hfield⟩ := turn_field h hf'
          exact .inr (.inl ⟨f', fs, it', rfl, hturn, hat, hmax, hless, hfield⟩)
    · rw [if_neg fun htrue ↦ hmem ((hfields it.argIndex hlt le_rfl).mp htrue)] at hbit
      exact .inl (goesOn_unset h (by omega) hbit
        (fun f hf heq ↦ hmem (List.mem_map.mpr ⟨f, hf, heq⟩)) fun heq ↦ by omega)
  · obtain rfl := h.fields_nil (by omega)
    have hne : ∀ f ∈ ([] : List RadiotapField), f.index ≠ it.argIndex := fun f hf ↦
      absurd hf List.not_mem_nil
    obtain heq | heq | heq : it.argIndex = 29 ∨ it.argIndex = 30 ∨ it.argIndex = 31 := by omega
    · by_cases hmore : k + 1 < groups.length
      · exact .inl (goesOn_namespace h heq hmore)
      · rw [heq, h29, decide_eq_false hmore] at hbit
        exact .inl (goesOn_unset h (by omega) hbit hne fun _ ↦ hmore)
    · rw [heq, h30] at hbit
      exact .inl (goesOn_unset h (by omega) hbit hne fun h29' ↦ by omega)
    · by_cases hmore : k + 1 < groups.length
      · exact .inl (goesOn_ext hwords hroom h heq hmore)
      · rw [heq, h31, decide_eq_false hmore] at hbit
        refine .inr (.inr ⟨rfl, by omega, ?_⟩)
        rw [turn, if_pos ⟨by omega, hbit⟩]

/-- One call finds the next field, or says that no field is left. -/
theorem next_at (hwords : GroupWords buf groups) (turns : ℕ)
    (hroom : 4 + 4 * groups.length ≤ it.maxLength) (h : it.At buf groups k fs)
    (hturns : it.bitsLeft < turns) :
    (∃ f k' fs' it',
      fs ++ (groups.drop (k + 1)).flatten = f :: (fs' ++ (groups.drop (k' + 1)).flatten) ∧
      next buf turns it = .ok (some .found, it') ∧ it'.At buf groups k' fs' ∧
      it'.maxLength = it.maxLength ∧ it'.bitsLeft < it.bitsLeft ∧ it'.thisArgument.IsField buf f) ∨
    (fs ++ (groups.drop (k + 1)).flatten = [] ∧ ∃ it',
      next buf turns it = .ok (some .noent, it')) := by
  induction turns generalizing it k fs with
  | zero => exact absurd hturns (Nat.not_lt_zero _)
  | succ turns ih =>
      rw [next]
      rcases turn_at hwords hroom h with ⟨k', fs', it', hturn, hat, hleft, hmax, hless⟩ |
        ⟨f, fs', it', rfl, hturn, hat, hmax, hless, hfield⟩ | ⟨rfl, hlast, hturn⟩
      · simp only [hturn, ok_bind]
        rcases ih (hmax ▸ hroom) hat (by omega) with
          ⟨f, k'', fs'', it'', hleft', hnext, hat', hmax', hless', hfield⟩ | ⟨hleft', it'', hnext⟩
        · exact .inl ⟨f, k'', fs'', it'', hleft.symm.trans hleft', hnext, hat', hmax'.trans hmax,
            hless'.trans hless, hfield⟩
        · exact .inr ⟨hleft.symm.trans hleft', it'', hnext⟩
      · simp only [hturn, ok_bind]
        exact .inl ⟨f, k, fs', it', rfl, rfl, hat, hmax, hless, hfield⟩
      · simp only [hturn, ok_bind]
        refine .inr ⟨?_, it, rfl⟩
        rw [hlast, List.drop_length]
        rfl

/-- The loop finds all fields. -/
theorem loop_at (hwords : GroupWords buf groups) (fuel : ℕ)
    (hroom : 4 + 4 * groups.length ≤ it.maxLength) (h : it.At buf groups k fs)
    (hfuel : it.bitsLeft < fuel) :
    ∃ args, loop buf fuel it = .ok (args, some .noent) ∧
      List.Forall₂ (Arg.IsField buf) (fs ++ (groups.drop (k + 1)).flatten) args := by
  induction fuel generalizing it k fs with
  | zero => exact absurd hfuel (Nat.not_lt_zero _)
  | succ fuel ih =>
      rw [loop]
      rcases next_at hwords it.turns hroom h it.bitsLeft_lt_turns with
        ⟨f, k', fs', it', hleft, hnext, hat, hmax, hless, hfield⟩ | ⟨hleft, it', hnext⟩
      · obtain ⟨args, hloop, hargs⟩ := ih (hmax ▸ hroom) hat (by omega)
        simp only [hnext, ok_bind, hloop]
        exact ⟨_, rfl, hleft ▸ .cons hfield hargs⟩
      · simp only [hnext, ok_bind]
        exact ⟨[], rfl, hleft ▸ .nil⟩

/-! ## Whole headers -/

/-- What `receive` gets at a field. -/
theorem Arg.IsField.read {f : RadiotapField} {a : Arg} (h : a.IsField buf f) :
    RadiotapArg.read buf a = .ok f.arg := by
  obtain ⟨hindex, -, hdata⟩ := h
  have hbyte : ∀ i < f.data.length,
      readAt Fault.bytes buf (a.offset + i) = .ok (f.data.getD i 0) := by
    intro i hi
    rw [readAt_eq_ok, hdata i hi, List.getD_eq_getElem?_getD, List.getElem?_eq_getElem hi]
    rfl
  have hle : ∀ i, i + 1 < f.data.length → ∃ v, readLe16 buf (a.offset + i) = .ok v ∧
      f.le16 i = .ofNat v := by
    intro i hi
    refine ⟨_, ?_, rfl⟩
    rw [readLe16, hbyte i (by omega), ok_bind, Nat.add_assoc, hbyte (i + 1) hi, ok_bind]
  obtain ⟨h1, h4, h2⟩ := size_of_read f.size_eq
  have hone (hlen : f.data.length = 1) (g : UInt8 → RadiotapArg) :
      (do .ok (g (← readAt Fault.bytes buf a.offset)) : Except Fault RadiotapArg) =
        .ok (g (f.data.getD 0 0)) := by
    have hb := hbyte 0 (by omega)
    rw [Nat.add_zero] at hb
    rw [hb, ok_bind]
  rw [RadiotapArg.read, RadiotapField.arg, hindex]
  generalize f.index = index at h1 h4 h2
  obtain rfl | rfl | rfl | rfl | rfl | rfl | hother :
      index = 1 ∨ index = 2 ∨ index = 5 ∨ index = 11 ∨ index = 3 ∨ index = 7 ∨
        ¬(index = 1 ∨ index = 2 ∨ index = 5 ∨ index = 11 ∨ index = 3 ∨ index = 7) := by
    omega
  · exact hone (h1 (by decide)) .flags
  · exact hone (h1 (by decide)) .rate
  · exact hone (h1 (by decide)) .dbmAntsignal
  · exact hone (h1 (by decide)) .antenna
  · obtain ⟨v, hv, hv'⟩ := hle 0 (by rw [h4 rfl]; decide)
    obtain ⟨w, hw, hw'⟩ := hle 2 (by rw [h4 rfl]; decide)
    rw [Nat.add_zero] at hv
    simp only [hv, ok_bind, hw, hv', hw']
  · obtain ⟨v, hv, hv'⟩ := hle 0 (by rw [h2 rfl]; decide)
    rw [Nat.add_zero] at hv
    simp only [hv, ok_bind, hv']
  · -- no other index has a case of its own
    repeat' split
    all_goals first | rfl | omega

theorem forall₂_read {fs : List RadiotapField} {args : List Arg}
    (h : List.Forall₂ (Arg.IsField buf) fs args) :
    args.mapM (RadiotapArg.read buf) = .ok (fs.map RadiotapField.arg) := by
  induction h with
  | nil => rfl
  | cons hfield _ ih =>
      rw [List.mapM_cons, hfield.read, ok_bind, ih, ok_bind]
      rfl

theorem map_index {fs : List RadiotapField} {args : List Arg}
    (h : List.Forall₂ (Arg.IsField buf) fs args) :
    args.map Arg.index = fs.map RadiotapField.index := by
  induction h with
  | nil => rfl
  | cons hfield _ ih => rw [List.map_cons, List.map_cons, hfield.1, ih]

end RadiotapIterator

namespace RadiotapLayout

variable {rt : List UInt8} {groups : List (List RadiotapField)}

theorem length_pos (h : RadiotapLayout rt groups) : 0 < groups.length :=
  List.length_pos_iff.mpr h.groups_ne

theorem room (h : RadiotapLayout rt groups) : 4 + 4 * groups.length ≤ rt.length := by
  obtain ⟨stop, hlaid, hstop⟩ := h.fields
  exact hlaid.le.trans hstop

/-- Word `k` says whether another word follows. -/
theorem hasExt (h : RadiotapLayout rt groups) {k : ℕ} (hk : k < groups.length) :
    ∃ word, readLe32 rt (4 + 4 * k) = .ok word ∧ hasExt word = decide (k + 1 < groups.length) := by
  obtain ⟨word, hword, hbits⟩ := h.words k _ (List.getElem?_eq_getElem hk)
  refine ⟨word, hword, ?_⟩
  rw [← hbits.ext, WfbBridge.hasExt, Nat.testBit_eq_decide_div_mod_eq, decide_eq_decide]
  omega

theorem wellFormed (h : RadiotapLayout rt groups) : WellFormedRadiotap rt := by
  have hpos := h.length_pos
  have hroom := h.room
  refine ⟨h.version, h.length, groups.length - 1, by omega, fun i hi ↦ ?_, ?_⟩
  · obtain ⟨word, hword, hext⟩ := h.hasExt (k := i) (by omega)
    exact ⟨word, hword, hext.trans (decide_eq_true (by omega))⟩
  · obtain ⟨word, hword, hext⟩ := h.hasExt (k := groups.length - 1) (by omega)
    exact ⟨word, hword, hext.trans (decide_eq_false (by omega))⟩

theorem groupWords (h : RadiotapLayout rt groups) (rest : List UInt8) :
    RadiotapIterator.GroupWords (rt ++ rest) groups := by
  intro k g hg
  have hk := (List.getElem?_eq_some_iff.mp hg).1
  have hroom := h.room
  obtain ⟨word, hword, hbits⟩ := h.words k g hg
  exact ⟨h.sorted g (List.mem_of_getElem? hg), word, by rwa [readLe32_append (by omega)], hbits⟩

/-- The iterator starts at the first group. -/
theorem init (h : RadiotapLayout rt groups) (rest : List UInt8) {len : ℕ} (hle : rt.length ≤ len)
    (hlen : len < 2147483648) :
    ∃ it g, RadiotapIterator.init (rt ++ rest) len = .ok (some it) ∧ groups[0]? = some g ∧
      it.maxLength = rt.length ∧ it.At (rt ++ rest) groups 0 g := by
  have hpos := h.length_pos
  have hroom := h.room
  have htrue : radiotapIteratorInit (rt ++ rest) len = .ok true := h.wellFormed.init hle hlen
  obtain ⟨it, hinit⟩ := radiotapIteratorInit_eq_true.mp htrue
  obtain ⟨hmax, -, n, word, hwords, hword, hit⟩ := RadiotapIterator.init_spec hinit
  rw [readLe16_append (by omega), h.length] at hmax
  have hmax := (Except.ok.inj hmax).symm
  -- the last word ends both of them
  have hn : n + 1 = groups.length := by
    rcases Nat.lt_trichotomy (n + 1) groups.length with hlt | heq | hgt
    · obtain ⟨last, hlast, hnot⟩ := hwords.last
      obtain ⟨word', hword', hext⟩ := h.hasExt (k := n) (by omega)
      rw [readLe32_append (by omega), hword'] at hlast
      rw [← Except.ok.inj hlast, hext, decide_eq_true hlt] at hnot
      cases hnot
    · exact heq
    · obtain ⟨last, hlast, hmore⟩ := hwords.ext (groups.length - 1) (by omega)
      obtain ⟨word', hword', hext⟩ := h.hasExt (k := groups.length - 1) (by omega)
      rw [readLe32_append (by omega), hword'] at hlast
      rw [← Except.ok.inj hlast, hext, decide_eq_false (by omega)] at hmore
      cases hmore
  obtain ⟨stop, hlaid, hstop⟩ := h.fields
  refine ⟨it, groups[0], hinit, List.getElem?_eq_getElem hpos, hmax, ?_⟩
  refine RadiotapIterator.at_group (h.groupWords rest) (List.getElem?_eq_getElem hpos) ?_ ?_ ?_ ?_
    ⟨stop, ?_, hstop.trans_eq hmax.symm⟩
  · rw [hit]
  · rw [hit]
  · rw [hit]
    exact hword
  · rw [hit]
  · have hflatten : groups[0] ++ (groups.drop (0 + 1)).flatten = groups.flatten := by
      rw [← List.flatten_cons, ← List.drop_eq_getElem_cons hpos, List.drop_zero]
    have harg : it.arg = 4 + 4 * groups.length := by
      rw [hit]
      change 8 + 4 * n = _
      omega
    rw [hflatten, harg]
    exact hlaid.append rest

/-- The iterator finds the fields, in their order, and says that no other is left. -/
theorem args (h : RadiotapLayout rt groups) (rest : List UInt8) {len : ℕ} (hle : rt.length ≤ len)
    (hlen : len < 2147483648) :
    ∃ it args, RadiotapIterator.init (rt ++ rest) len = .ok (some it) ∧
      it.args (rt ++ rest) = .ok (args, some .noent) ∧
      List.Forall₂ (RadiotapIterator.Arg.IsField (rt ++ rest)) groups.flatten args := by
  obtain ⟨it, g, hinit, hg, hmax, hat⟩ := h.init rest hle hlen
  have hroom := h.room
  obtain ⟨args, hloop, hargs⟩ :=
    RadiotapIterator.loop_at (h.groupWords rest) it.turns (by omega) hat it.bitsLeft_lt_turns
  have hpos := h.length_pos
  rw [List.getElem?_eq_getElem hpos] at hg
  have hflatten : g ++ (groups.drop (0 + 1)).flatten = groups.flatten := by
    rw [← Option.some.inj hg, ← List.flatten_cons, ← List.drop_eq_getElem_cons hpos, List.drop_zero]
  rw [hflatten] at hargs
  exact ⟨it, args, hinit, hloop, hargs⟩

end RadiotapLayout

/-- The iterator finds the fields a radiotap header was written with, over all its `present` words,
and no others, and `receive` reads them, whatever the padding and whatever follows the header. -/
theorem RadiotapInfo.readHeader_of_layout {rt : List UInt8} {groups : List (List RadiotapField)}
    (h : RadiotapLayout rt groups) (rest : List UInt8) {len : ℕ} (hle : rt.length ≤ len)
    (hlen : len < 2147483648) (msg : RadiotapInfo) :
    ∃ it args, RadiotapIterator.init (rt ++ rest) len = .ok (some it) ∧
      it.args (rt ++ rest) = .ok (args, some .noent) ∧
      List.Forall₂ (RadiotapIterator.Arg.IsField (rt ++ rest)) groups.flatten args ∧
      msg.readHeader (rt ++ rest) it =
        .ok (msg.readArgs (groups.flatten.map RadiotapField.arg)) := by
  obtain ⟨it, args, hinit, hargs, hfields⟩ := h.args rest hle hlen
  refine ⟨it, args, hinit, hargs, hfields, ?_⟩
  rw [readHeader, hargs, ok_bind]
  simp only [RadiotapIterator.forall₂_read hfields, RadiotapIterator.mapError_ok, ok_bind]

namespace RadiotapLayout

/-- A header with one group of fields. -/
theorem single {rt : List UInt8} {fs : List RadiotapField} {word stop : ℕ}
    (hversion : readAt .bytes rt 0 = (.ok 0 : Except Fault UInt8))
    (hlength : readLe16 rt 2 = .ok rt.length)
    (hsorted : (fs.map RadiotapField.index).Pairwise (· < ·)) (hword : readLe32 rt 4 = .ok word)
    (hbits : PresentBits word (fs.map RadiotapField.index) false) (hlaid : LaidOut rt 8 fs stop)
    (hstop : stop ≤ rt.length) :
    RadiotapLayout rt [fs] := by
  refine ⟨hversion, hlength, by simp, by simpa, fun k g hg ↦ ?_, stop, by simpa, hstop⟩
  have hk := (List.getElem?_eq_some_iff.mp hg).1
  obtain rfl : k = 0 := by simpa using hk
  obtain rfl := Option.some.inj hg
  exact ⟨word, hword, hbits⟩

end RadiotapLayout

/-- The fields of `twoAntennas`. -/
def twoAntennasFields : List (List RadiotapField) :=
  [[⟨1, 1, [0x10], rfl, by decide⟩, ⟨2, 1, [12], rfl, by decide⟩,
      ⟨3, 2, [0x6c, 9, 0xa0, 0], rfl, by decide⟩, ⟨5, 1, [206], rfl, by decide⟩],
    [⟨5, 1, [200], rfl, by decide⟩, ⟨11, 1, [0], rfl, by decide⟩],
    [⟨5, 1, [206], rfl, by decide⟩, ⟨11, 1, [1], rfl, by decide⟩]]

theorem twoAntennas_layout : RadiotapLayout RadiotapIterator.twoAntennas twoAntennasFields := by
  refine ⟨rfl, rfl, by simp [twoAntennasFields], by decide, fun k g hg ↦ ?_, 27, ?_, le_rfl⟩
  · have hk : k < 3 := (List.getElem?_eq_some_iff.mp hg).1
    obtain rfl | rfl | rfl : k = 0 ∨ k = 1 ∨ k = 2 := by omega
    all_goals
      obtain rfl := Option.some.inj hg
      exact ⟨_, rfl, by decide⟩
  · refine .cons 0 (by decide) (by decide) (by decide) ?_
    refine .cons 0 (by decide) (by decide) (by decide) ?_
    refine .cons 0 (by decide) (by decide) (by decide) ?_
    refine .cons 0 (by decide) (by decide) (by decide) ?_
    refine .cons 0 (by decide) (by decide) (by decide) ?_
    refine .cons 0 (by decide) (by decide) (by decide) ?_
    refine .cons 0 (by decide) (by decide) (by decide) ?_
    exact .cons 0 (by decide) (by decide) (by decide) (.nil _)

/-- Both signals are found and read, with the antenna numbers after them. -/
theorem RadiotapInfo.readHeader_of_layout_twoAntennas :
    ∃ it args, RadiotapIterator.init RadiotapIterator.twoAntennas 27 = .ok (some it) ∧
      it.args RadiotapIterator.twoAntennas = .ok (args, some .noent) ∧
      args.map RadiotapIterator.Arg.index = [1, 2, 3, 5, 5, 11, 5, 11] ∧
      ({} : RadiotapInfo).readHeader RadiotapIterator.twoAntennas it = .ok
        { rate := 12, channel := 2412, channelFlag := 0xa0, radiotapFlags := 0x10, rssi := -50,
          rssis := [-50] } := by
  obtain ⟨it, args, hinit, hargs, hfields, hread⟩ :=
    readHeader_of_layout twoAntennas_layout [] le_rfl (by decide) {}
  exact ⟨it, args, hinit, hargs, RadiotapIterator.map_index hfields,
    hread.trans (by decide +kernel)⟩

/-! ## The headers that are sent -/

namespace RawSendSocket

/-- The fields `send` asks the driver for: the rate and that no acknowledgement is expected. -/
def radiotapFields (s : RawSendSocket) (datarate : UInt8) : List RadiotapField :=
  if s.mcs then
    [⟨15, 2, [0x08, 0], rfl, by decide⟩,
      ⟨19, 1, [0x37, (if s.stbc then 0x20 else 0) ||| (if s.ldpc then 0x10 else 0), datarate],
        rfl, by decide⟩]
  else [⟨2, 1, [legacyRate datarate], rfl, by decide⟩, ⟨15, 2, [0x08, 0], rfl, by decide⟩]

/-- `radiotap_header_legacy` and `radiotap_header_mcs` are radiotap headers. -/
theorem radiotapHeader_layout (s : RawSendSocket) (pad2 datarate : UInt8) :
    RadiotapLayout (s.radiotapHeader pad2 datarate) [s.radiotapFields datarate] := by
  have hlegacy : PresentBits 0x8004 [2, 15] false := by decide
  have hmcs : PresentBits 0x88000 [15, 19] false := by decide
  have hone : ∀ i < 1, i = 0 := by decide
  have htwo : ∀ i < 2, i = 0 ∨ i = 1 := by decide
  have hthree : ∀ i < 3, i = 0 ∨ i = 1 ∨ i = 2 := by decide
  rw [radiotapHeader, radiotapFields]
  split
  · refine .single rfl rfl (show [15, 19].Pairwise (· < ·) by decide) rfl hmcs ?_ (le_refl 13)
    refine .cons 0 Nat.two_pos ⟨4, rfl⟩ (fun i hi ↦ ?_)
      (.cons 0 Nat.one_pos (one_dvd _) (fun i hi ↦ ?_) (.nil _))
    · obtain rfl | rfl := htwo i hi <;> rfl
    · obtain rfl | rfl | rfl := hthree i hi <;> rfl
  · refine .single rfl rfl (show [2, 15].Pairwise (· < ·) by decide) rfl hlegacy ?_ (le_refl 12)
    -- the byte after the rate is padding
    refine .cons 0 Nat.one_pos (one_dvd _) (fun i hi ↦ ?_)
      (.cons 1 Nat.one_lt_two ⟨5, rfl⟩ (fun i hi ↦ ?_) (.nil _))
    · obtain rfl := hone i hi
      rfl
    · obtain rfl | rfl := htwo i hi <;> rfl

/-- In the header of every frame that is sent the iterator finds the fields that were asked for, and
no others: the byte of padding that is never set does not matter. -/
theorem radiotapHeader_read (s : RawSendSocket) (pad2 datarate : UInt8) (rest : List UInt8)
    {len : ℕ} (hle : (s.radiotapHeader pad2 datarate).length ≤ len) (hlen : len < 2147483648) :
    ∃ it args, RadiotapIterator.init (s.radiotapHeader pad2 datarate ++ rest) len = .ok (some it) ∧
      it.args (s.radiotapHeader pad2 datarate ++ rest) = .ok (args, some .noent) ∧
      List.Forall₂ (RadiotapIterator.Arg.IsField (s.radiotapHeader pad2 datarate ++ rest))
        (s.radiotapFields datarate) args := by
  have hargs := (s.radiotapHeader_layout pad2 datarate).args rest hle hlen
  rwa [List.flatten_singleton] at hargs

end RawSendSocket

end WfbBridge
