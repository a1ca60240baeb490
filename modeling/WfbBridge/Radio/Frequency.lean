import Mathlib
import WfbBridge.Library.Run

/-!
# The frequency of a device

`HTTPServer` (`http_server.cc`) tunes the wifi device, and says which frequency it is tuned to and
which ones it could be.  The list of these is made by trying all of them (`get_wifi_frequency_list`
of `raw_socket.cc`), which leaves the device at the last one that worked.

The radio is the frequency that was last set with success on every device.  Whether
`set_wifi_frequency` succeeds is up to the driver, and comes as an argument.
-/

namespace WfbBridge

/-- `frequencies_2GHz`. -/
def frequencies2GHz : List ℕ :=
  [2412, 2417, 2422, 2427, 2432, 2437, 2442, 2447, 2452, 2457, 2462, 2467, 2472, 2484]

/-- `frequencies_5GHz`. -/
def frequencies5GHz : List ℕ :=
  [5160, 5170, 5180, 5200, 5220, 5240, 5260, 5280, 5300, 5320, 5500, 5520, 5540, 5560, 5580, 5600,
    5620, 5640, 5660, 5680, 5700, 5745, 5765, 5785, 5805, 5825]

/-- `HTTPServer`, and what the devices are tuned to.  `m_current_frequency` is not initialized. -/
structure HTTPServer where
  device : String := ""
  freqs : List ℕ := []
  currentFrequency : ℕ
  tuned : String → Option ℕ := fun _ ↦ none

namespace HTTPServer

/-- `set_wifi_frequency`, which succeeds or not. -/
def setWifiFrequency (s : HTTPServer) (device : String) (freq : ℕ) (ok : Bool) :
    Bool × HTTPServer :=
  if ok then (true, { s with tuned := Function.update s.tuned device (some freq) }) else (false, s)

/-- A turn of a loop of `get_wifi_frequency_list`. -/
def tryFrequency (device : String) (answer : ℕ → Bool) (s : HTTPServer) (freq : ℕ) : HTTPServer :=
  match s.setWifiFrequency device freq (answer freq) with
  | (true, s) => { s with freqs := s.freqs ++ [freq] }
  | (false, s) => s

/-- `get_wifi_frequency_list`.  No frequency is tried twice,
so that `answer` may give the result of every call. -/
def getWifiFrequencyList (s : HTTPServer) (device : String) (answer : ℕ → Bool) : HTTPServer :=
  let s := { s with freqs := [] }
  let s := frequencies2GHz.foldl (tryFrequency device answer) s
  frequencies5GHz.foldl (tryFrequency device answer) s

/-- `get_frequencies`. -/
def getFrequencies (s : HTTPServer) : List ℕ := s.freqs

/-- `frequency_valid`. -/
def frequencyValid (s : HTTPServer) (freq : ℕ) : Bool := freq ∈ s.getFrequencies

/-- `set_frequency`; the current frequency is a `uint16_t`. -/
def setFrequency (s : HTTPServer) (freq : ℕ) (ok : Bool) : Bool × HTTPServer :=
  if ¬s.frequencyValid freq then (false, s)
  else
    match s.setWifiFrequency s.device freq ok with
    | (true, s) => (true, { s with currentFrequency := freq % 65536 })
    | (false, s) => (false, s)

/-- `update_frequencies`; `answer` is for the list, and `ok` for the frequency that is set last. -/
def updateFrequencies (s : HTTPServer) (device : String) (finalFreq : ℕ) (answer : ℕ → Bool)
    (ok : Bool) : Bool × HTTPServer :=
  ({ s with device }.getWifiFrequencyList device answer).setFrequency finalFreq ok

/-- `get_frequency`. -/
def getFrequency (s : HTTPServer) : ℕ := s.currentFrequency

/-- A call from `configure_device` or from the handler of `/set_frequency`,
with what the driver says. -/
inductive Call where
  | updateFrequencies (device : String) (finalFreq : ℕ) (answer : ℕ → Bool) (ok : Bool)
  | setFrequency (freq : ℕ) (ok : Bool)

/-- What a call leaves. -/
def step (s : HTTPServer) : Call → HTTPServer
  | .updateFrequencies device finalFreq answer ok =>
      (s.updateFrequencies device finalFreq answer ok).2
  | .setFrequency freq ok => (s.setFrequency freq ok).2

/-- The frequency that is reported is the one the device is tuned to, and it is in the list. -/
def ReportsTuned (s : HTTPServer) : Prop :=
  s.tuned s.device = some s.getFrequency ∧ s.getFrequency ∈ s.getFrequencies

instance (s : HTTPServer) : Decidable s.ReportsTuned := inferInstanceAs (Decidable (_ ∧ _))

/-! ## When it is -/

/-- The list that is made with these answers. -/
def accepted (answer : ℕ → Bool) : List ℕ := (frequencies2GHz ++ frequencies5GHz).filter answer

/-- An update succeeds, or the last frequency that works is the one reported before. -/
def KeepsTuned (s : HTTPServer) : Call → Prop
  | .updateFrequencies _ finalFreq answer ok =>
      finalFreq ∈ accepted answer ∧ ok ∨ (accepted answer).getLast? = some s.getFrequency
  | .setFrequency _ _ => True

instance (s : HTTPServer) : (call : Call) → Decidable (s.KeepsTuned call)
  | .updateFrequencies _ _ _ _ => inferInstanceAs (Decidable (_ ∨ _))
  | .setFrequency _ _ => isTrue trivial

/-- The list has only frequencies that are tried. -/
def Listed (s : HTTPServer) : Prop := ∀ f ∈ s.freqs, f ∈ frequencies2GHz ++ frequencies5GHz

variable {s : HTTPServer} {device : String} {freq : ℕ} {answer : ℕ → Bool} {ok : Bool}

/-- The frequencies are small enough. -/
theorem Listed.mod_eq (h : s.Listed) (hfreq : freq ∈ s.freqs) : freq % 65536 = freq := by
  have hall : ∀ f ∈ frequencies2GHz ++ frequencies5GHz, f % 65536 = f := by decide
  exact hall freq (h freq hfreq)

/-- A loop adds the frequencies that work to the list, and leaves the device at the last one. -/
theorem foldl_tryFrequency (freqs : List ℕ) (s : HTTPServer) :
    freqs.foldl (tryFrequency device answer) s =
      { s with
        freqs := s.freqs ++ freqs.filter answer
        tuned := Function.update s.tuned device
          ((freqs.filter answer).getLast?.or (s.tuned device)) } := by
  induction freqs generalizing s with
  | nil => simp
  | cons f freqs ih =>
      rw [List.foldl_cons, ih, tryFrequency, setWifiFrequency]
      cases hf : answer f with
      | false => simp [hf]
      | true => simp [hf, List.getLast?_cons]

theorem getWifiFrequencyList_eq : s.getWifiFrequencyList device answer =
    { s with
      freqs := accepted answer
      tuned := Function.update s.tuned device
        ((accepted answer).getLast?.or (s.tuned device)) } := by
  rw [getWifiFrequencyList]
  simp only [← List.foldl_append]
  rw [foldl_tryFrequency]
  rfl

theorem setFrequency_eq : s.setFrequency freq ok =
    if freq ∈ s.freqs ∧ ok then
      (true, { s with
        currentFrequency := freq % 65536
        tuned := Function.update s.tuned s.device (some freq) })
    else (false, s) := by
  rw [setFrequency, frequencyValid, getFrequencies, setWifiFrequency]
  by_cases hfreq : freq ∈ s.freqs
  · cases ok <;> simp [hfreq]
  · simp [hfreq]

/-- Setting a frequency keeps the list. -/
theorem setFrequency_freqs : (s.setFrequency freq ok).2.freqs = s.freqs := by
  rw [setFrequency_eq]
  split <;> rfl

theorem listed_getWifiFrequencyList (s : HTTPServer) (device : String) (answer : ℕ → Bool) :
    (s.getWifiFrequencyList device answer).Listed := by
  rw [getWifiFrequencyList_eq]
  exact fun f hf ↦ List.mem_of_mem_filter hf

/-- A call makes a new list, or keeps the old one. -/
theorem Listed.step (h : s.Listed) (call : Call) : (s.step call).Listed := by
  cases call with
  | setFrequency freq ok =>
      change (s.setFrequency freq ok).2.Listed
      rw [Listed, setFrequency_freqs]
      exact h
  | updateFrequencies device finalFreq answer ok =>
      change (s.updateFrequencies device finalFreq answer ok).2.Listed
      rw [Listed, updateFrequencies, setFrequency_freqs]
      exact listed_getWifiFrequencyList _ device answer

theorem setFrequency_eq_true_iff : (s.setFrequency freq ok).1 = true ↔ freq ∈ s.freqs ∧ ok := by
  rw [setFrequency_eq]
  split
  case isTrue hset => simpa using hset
  case isFalse hset => simpa using hset

/-- A frequency that is set is the one that is reported. -/
theorem Listed.reportsTuned_setFrequency (h : s.Listed) (hset : freq ∈ s.freqs ∧ ok) :
    (s.setFrequency freq ok).2.ReportsTuned := by
  rw [setFrequency_eq, if_pos hset, ReportsTuned, getFrequency, getFrequencies]
  simp only [h.mod_eq hset.1, Function.update_self]
  exact ⟨trivial, hset.1⟩

/-- After a list that was made and a frequency that was not set,
the device is at the last frequency that works. -/
theorem reportsTuned_getWifiFrequencyList :
    ({ s with device }.getWifiFrequencyList device answer).ReportsTuned ↔
      (accepted answer).getLast? = some s.getFrequency := by
  rw [getWifiFrequencyList_eq]
  change Function.update s.tuned device _ device = some s.getFrequency ∧
    s.getFrequency ∈ accepted answer ↔ _
  rw [Function.update_self]
  constructor
  · rintro ⟨htuned, hmem⟩
    have hlast := List.getLast?_eq_some_getLast (List.ne_nil_of_mem hmem)
    rw [hlast] at htuned ⊢
    exact htuned
  · intro hlast
    rw [hlast]
    exact ⟨rfl, List.mem_of_getLast? hlast⟩

/-- What a call leaves is right exactly when the call keeps it so. -/
theorem reportsTuned_step (hlisted : s.Listed) (h : s.ReportsTuned) (call : Call) :
    (s.step call).ReportsTuned ↔ s.KeepsTuned call := by
  cases call with
  | setFrequency freq ok =>
      refine iff_of_true ?_ trivial
      by_cases hset : freq ∈ s.freqs ∧ ok
      · exact hlisted.reportsTuned_setFrequency hset
      · change (s.setFrequency freq ok).2.ReportsTuned
        rw [setFrequency_eq, if_neg hset]
        exact h
  | updateFrequencies device finalFreq answer ok =>
      change (s.updateFrequencies device finalFreq answer ok).2.ReportsTuned ↔ _ ∨ _
      have hfreqs : ({ s with device }.getWifiFrequencyList device answer).freqs =
          accepted answer := by
        rw [getWifiFrequencyList_eq]
      by_cases hset : finalFreq ∈ accepted answer ∧ ok
      · refine iff_of_true ?_ (.inl hset)
        exact (listed_getWifiFrequencyList _ device answer).reportsTuned_setFrequency
          (by rwa [hfreqs])
      · rw [updateFrequencies, setFrequency_eq, hfreqs, if_neg hset, or_iff_right hset]
        exact reportsTuned_getWifiFrequencyList

/-- After an update that succeeded, the frequency that is reported is always right exactly when
every later update succeeds or leaves the device at it. -/
theorem reportsTuned_iff (s : HTTPServer) (device : String) (finalFreq : ℕ) (answer : ℕ → Bool)
    (ok : Bool) (h : (s.updateFrequencies device finalFreq answer ok).1 = true)
    (calls : List Call) :
    (∀ pre, pre <+: calls →
      (pre.foldl step (s.updateFrequencies device finalFreq answer ok).2).ReportsTuned) ↔
    Run.AlongFold step KeepsTuned (s.updateFrequencies device finalFreq answer ok).2 calls := by
  have hlist := listed_getWifiFrequencyList { s with device } device answer
  refine Run.forall_state_iff (I := Listed) (P := ReportsTuned) (fun s call hs ↦ hs.step call)
    (fun s call hs hreports ↦ reportsTuned_step hs hreports call) ?_ ?_ calls
  · rw [Listed, updateFrequencies, setFrequency_freqs]
    exact hlist
  · exact hlist.reportsTuned_setFrequency (setFrequency_eq_true_iff.mp h)

/-- Two devices, the second of them for 2.4 GHz only. -/
theorem reportsTuned_two_devices :
    ([.setFrequency 5180 true, .setFrequency 5240 false,
      .updateFrequencies "wlan1" 2437 (· < 3000) true].foldl step
      (({ currentFrequency := 0 } : HTTPServer).updateFrequencies "wlan0" 2412 (fun _ ↦ true)
        true).2).ReportsTuned :=
  (reportsTuned_iff { currentFrequency := 0 } "wlan0" 2412 (fun _ ↦ true) true (by decide) _).mpr
    (by decide) _
    (List.prefix_refl _)

/-- A second device for 2.4 GHz is to be used at 5825 MHz.  It is left at 2484 MHz,
and 2412 MHz is reported. -/
theorem not_reportsTuned_failed_update :
    (({ currentFrequency := 0 } : HTTPServer).updateFrequencies "wlan0" 2412 (· < 3000) true).1 =
      true ∧
    ¬([.updateFrequencies "wlan1" 5825 (· < 3000) true].foldl step
      (({ currentFrequency := 0 } : HTTPServer).updateFrequencies "wlan0" 2412 (· < 3000)
        true).2).ReportsTuned := by
  decide

end HTTPServer

end WfbBridge
