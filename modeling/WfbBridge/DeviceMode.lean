import Mathlib
import WfbBridge.DeviceLoop

/-!
# The mode of a device

Which mode, air or ground, the sockets are opened in: `configure_device` and the three loops over
the devices in the device loop of `main` (`wfb_bridge.cc`).  The section of a device may override
the global mode.

`configure_device` hands the mode back through a reference.  The loops that look for a transmit
and for a relay device pass it a copy; the loop that looks for a receive device makes the copy and
passes the variable of `main` itself.
-/

namespace WfbBridge

/-- The configuration file, as `INIReader` reads it: the value of a name in a section,
and its value as an integer. -/
structure INIReader where
  value : String → String → Option String
  integer : String → String → Option ℤ

namespace INIReader

variable (conf : INIReader)

/-- `Get`. -/
def get (sec name dflt : String) : String := (conf.value sec name).getD dflt

/-- `GetInteger`. -/
def getInteger (sec name : String) (dflt : ℤ) : ℤ := (conf.integer sec name).getD dflt

/-- A parameter of a device: from its own section,
or from that of its type if it is not set there. -/
def deviceParam (wrap : ℤ → ℤ) (device deviceType name : String) (unset dflt : ℤ) : ℤ :=
  let v := wrap (conf.getInteger ("device-" ++ device) name unset)
  if v = unset then wrap (conf.getInteger ("device-" ++ deviceType) name dflt) else v

/-- The mode in the section of a device; empty if it is not given. -/
def deviceMode (device : String) : String := conf.get ("device-" ++ device) "mode" ""

/-- The mode of a device: its own, or the global one. -/
def ownMode (globalMode device : String) : String :=
  if conf.deviceMode device ≠ "" then conf.deviceMode device else globalMode

end INIReader

/-- A number as an `int`. -/
def wrapInt (v : ℤ) : ℤ := Int.bmod v 4294967296

/-- A number as a `uint32_t`. -/
def wrapU32 (v : ℤ) : ℤ := v % 4294967296

/-- What a device is opened for. -/
inductive Role where
  | transmit
  | relay
  | receive
deriving DecidableEq

namespace Role

/-- The argument `transmit` of `configure_device`. -/
def isTransmit (r : Role) : Bool := r = .transmit

/-- The argument `relay` of `configure_device`. -/
def isRelay (r : Role) : Bool := r = .relay

end Role

/-- The transmit parameters that `configure_device` hands back. -/
structure WifiParams where
  mcs : Bool
  stbc : Bool
  ldpc : Bool
deriving DecidableEq

/-- What the functions that set up a device return. -/
structure WifiCalls where
  setWifiUp : Bool
  setWifiMonitorMode : Bool
  updateFrequencies : ℤ → Bool
  addSendDevice : WifiParams → Bool
  addReceiveDevice : Bool

/-- The type of a device rules it out. -/
def INIReader.Excluded (conf : INIReader) (role : Role) (device : String) : Prop :=
  let type := conf.get ("device-" ++ device) "type" "unspecified"
  type = "ignore" ∨ (role.isTransmit ∧ (type = "receiver" ∨ type = "relay")) ∨
    (¬role.isTransmit ∧ (type = "transmitter" ∨ (type = "relay" ∧ ¬role.isRelay))) ∨
    (role.isRelay ∧ type ≠ "relay")

instance (conf : INIReader) (role : Role) (device : String) :
    Decidable (conf.Excluded role device) :=
  inferInstanceAs (Decidable (_ ∨ _ ∨ _ ∨ _))

/-- `configure_device`: the parameters, if it succeeds, and `mode` after it. -/
def configureDevice (conf : INIReader) (device deviceType : String) (role : Role) (mode : String)
    (calls : WifiCalls) : Option WifiParams × String :=
  if conf.Excluded role device then (none, mode)
  else
    let freq := conf.deviceParam wrapU32 device deviceType "frequency" 0 2412
    let datarate := conf.deviceParam wrapInt device deviceType "datarate" (-1) (-1)
    let params : WifiParams := {
      mcs := conf.deviceParam wrapInt device deviceType "mcs" (-1) 0 = 1
      stbc := conf.deviceParam wrapInt device deviceType "stbc" (-1) 0 = 1
      ldpc := conf.deviceParam wrapInt device deviceType "ldpc" (-1) 0 = 1 }
    let getMode := conf.get ("device-" ++ device) "mode" ""
    let mode := if getMode ≠ "" then getMode else mode
    if (0 ≤ datarate ∧ datarate < 7) ∧ ¬calls.setWifiUp then (none, mode)
    else if ¬calls.setWifiMonitorMode then (none, mode)
    else if ¬calls.updateFrequencies freq then (none, mode)
    -- `set_wifi_txpower` comes last, and only a warning is logged if it fails
    else (some params, mode)

/-- A socket that was opened. -/
structure OpenSocket where
  role : Role
  device : String
  ground : Bool
deriving DecidableEq

/-- One turn of the loop for a role: the socket, if one is opened, and `mode` after it. -/
def tryDevice (conf : INIReader) (role : Role) (mode : String) (dev : String × String)
    (calls : WifiCalls) : Option OpenSocket × String :=
  match role with
  | .transmit | .relay =>
      let (params, devMode) := configureDevice conf dev.1 dev.2 role mode calls
      match params with
      | none => (none, mode)
      | some params =>
          if calls.addSendDevice params then (some ⟨role, dev.1, devMode = "ground"⟩, mode)
          else (none, mode)
  | .receive =>
      let devMode := mode
      let (params, mode) := configureDevice conf dev.1 dev.2 .receive mode calls
      match params with
      | none => (none, mode)
      | some _ =>
          if calls.addReceiveDevice then (some ⟨.receive, dev.1, devMode = "ground"⟩, mode)
          else (none, mode)

/-- The loop for a role; it ends with the first device that can be opened. -/
def openFirst (conf : INIReader) (role : Role) (calls : String × String → WifiCalls) :
    String → List (String × String) → Option OpenSocket × String
  | mode, [] => (none, mode)
  | mode, dev :: devs =>
      match tryDevice conf role mode dev (calls dev) with
      | (some sock, mode) => (some sock, mode)
      | (none, mode) => openFirst conf role calls mode devs

/-- An iteration of the device loop: the devices it finds, each with its type, and what the
functions that set up a device return for it. -/
structure Poll where
  devices : List (String × String)
  calls : Role → String × String → WifiCalls

/-- What the device loop keeps between iterations, with all the sockets it has opened. -/
structure OpenDevices where
  currentDevices : Finset String := ∅
  mode : String
  opened : List OpenSocket := []

namespace OpenDevices

/-- The names of the devices differ from the current ones. -/
def change (s : OpenDevices) (devs : List (String × String)) : Prop :=
  ({ currentDevices := s.currentDevices } : DeviceLoop).change (devs.map Prod.fst)

instance (s : OpenDevices) (devs : List (String × String)) : Decidable (s.change devs) :=
  inferInstanceAs (Decidable (DeviceLoop.change _ _))

/-- One of the three loops. -/
def openRole (conf : INIReader) (p : Poll) (s : OpenDevices) (role : Role) : OpenDevices :=
  let (sock, mode) := openFirst conf role (p.calls role) s.mode p.devices
  { s with mode, opened := s.opened ++ sock.toList }

/-- An iteration. -/
def poll (conf : INIReader) (s : OpenDevices) (p : Poll) : OpenDevices :=
  if s.change p.devices then
    [.transmit, .relay, .receive].foldl (openRole conf p)
      { s with currentDevices := (p.devices.map Prod.fst).toFinset }
  else s

end OpenDevices

/-- A socket is in the mode of its device. -/
def OpenSocket.InOwnMode (conf : INIReader) (globalMode : String) (sock : OpenSocket) : Prop :=
  sock.ground = decide (conf.ownMode globalMode sock.device = "ground")

instance (conf : INIReader) (globalMode : String) (sock : OpenSocket) :
    Decidable (sock.InOwnMode conf globalMode) := inferInstanceAs (Decidable (_ = _))

/-- Every socket that is opened is in the mode of its device,
whatever the functions that set up the devices return. -/
def UsesOwnMode (conf : INIReader) (mode : String) (lists : List (List (String × String))) : Prop :=
  ∀ polls : List Poll, polls.map Poll.devices = lists →
    ∀ sock ∈ (polls.foldl (OpenDevices.poll conf) { mode }).opened, sock.InOwnMode conf mode

/-! ## When the modes do not mix -/

/-- A device that may be received from is on the ground where the global mode is ground. -/
def INIReader.ReceivesAlike (conf : INIReader) (globalMode device : String) : Prop :=
  ¬conf.Excluded .receive device →
    (conf.ownMode globalMode device = "ground" ↔ globalMode = "ground")

instance (conf : INIReader) (globalMode device : String) :
    Decidable (conf.ReceivesAlike globalMode device) :=
  inferInstanceAs (Decidable (_ → _))

section Modes

variable {conf : INIReader} {mode globalMode device deviceType : String} {role : Role}
  {calls : WifiCalls} {dev : String × String}

/-- The mode of a device depends on the global one only where it has none of its own. -/
theorem INIReader.ownMode_congr (h : mode = "ground" ↔ globalMode = "ground") :
    conf.ownMode mode device = "ground" ↔ conf.ownMode globalMode device = "ground" := by
  rw [ownMode, ownMode]
  split
  · exact Iff.rfl
  · exact h

/-- What `configure_device` does to the mode, whether the device can be set up or not. -/
theorem configureDevice_cases (conf : INIReader) (device deviceType : String) (role : Role)
    (mode : String) (calls : WifiCalls) :
    conf.Excluded role device ∧
        configureDevice conf device deviceType role mode calls = (none, mode) ∨
      ¬conf.Excluded role device ∧ ∃ params,
        configureDevice conf device deviceType role mode calls =
          (params, conf.ownMode mode device) := by
  by_cases h : conf.Excluded role device
  · exact .inl ⟨h, if_pos h⟩
  · refine .inr ⟨h, _, Prod.ext rfl ?_⟩
    rw [configureDevice, if_neg h]
    simp only [apply_ite Prod.snd, ite_self]
    rfl

/-- What a turn of the loop does to `mode`: only a device that is tried for receiving changes it. -/
theorem tryDevice_mode : (tryDevice conf role mode dev calls).2 =
    if role = .receive ∧ ¬conf.Excluded role dev.1 then conf.ownMode mode dev.1 else mode := by
  obtain ⟨hex, heq⟩ | ⟨hex, params, heq⟩ := configureDevice_cases conf dev.1 dev.2 role mode calls
  · cases role <;> simp [tryDevice, heq, hex]
  · cases role <;> cases params <;> simp only [tryDevice, heq, apply_ite Prod.snd, ite_self] <;>
      simp [hex]

/-- The socket that a turn of the loop opens. -/
theorem tryDevice_socket {sock : OpenSocket}
    (h : (tryDevice conf role mode dev calls).1 = some sock) :
    ¬conf.Excluded role dev.1 ∧ sock = ⟨role, dev.1,
      (if role = .receive then mode else conf.ownMode mode dev.1) = "ground"⟩ := by
  obtain ⟨hex, heq⟩ | ⟨hex, params, heq⟩ := configureDevice_cases conf dev.1 dev.2 role mode calls
  · cases role <;> simp [tryDevice, heq] at h
  · refine ⟨hex, ?_⟩
    cases role <;> cases params <;> simp [tryDevice, heq, apply_ite Prod.fst] at h <;>
      simp [h.2.symm]

/-- A turn of the loop in a mode that is as good as the global one. -/
theorem tryDevice_alike (role : Role) (calls : WifiCalls)
    (hmode : mode = "ground" ↔ globalMode = "ground") (hdev : conf.ReceivesAlike globalMode dev.1) :
    ((tryDevice conf role mode dev calls).2 = "ground" ↔ globalMode = "ground") ∧
      ∀ sock ∈ (tryDevice conf role mode dev calls).1, sock.InOwnMode conf globalMode := by
  have hown : conf.ownMode mode dev.1 = "ground" ↔ conf.ownMode globalMode dev.1 = "ground" :=
    INIReader.ownMode_congr hmode
  constructor
  · rw [tryDevice_mode]
    split
    case isTrue hreceive =>
      obtain ⟨rfl, hex⟩ := hreceive
      exact hown.trans (hdev hex)
    case isFalse => exact hmode
  · intro sock hsock
    obtain ⟨hex, rfl⟩ := tryDevice_socket hsock
    refine decide_eq_decide.mpr ?_
    split
    case isTrue hreceive =>
      subst hreceive
      exact hmode.trans (hdev hex).symm
    case isFalse => exact hown

theorem openFirst_alike (role : Role) (calls : String × String → WifiCalls)
    {devs : List (String × String)} (hmode : mode = "ground" ↔ globalMode = "ground")
    (hdevs : ∀ dev ∈ devs, conf.ReceivesAlike globalMode dev.1) :
    ((openFirst conf role calls mode devs).2 = "ground" ↔ globalMode = "ground") ∧
      ∀ sock ∈ (openFirst conf role calls mode devs).1, sock.InOwnMode conf globalMode := by
  induction devs generalizing mode with
  | nil => exact ⟨hmode, by simp [openFirst]⟩
  | cons dev devs ih =>
      have hdev := tryDevice_alike role (calls dev) hmode (hdevs dev List.mem_cons_self)
      rw [openFirst]
      match htry : tryDevice conf role mode dev (calls dev) with
      | (some sock, mode') =>
          rw [htry] at hdev
          exact hdev
      | (none, mode') =>
          rw [htry] at hdev
          exact ih hdev.1 fun dev hd ↦ hdevs dev (List.mem_cons_of_mem _ hd)

/-- The loops for a transmit and a relay device keep `mode`. -/
theorem openFirst_mode_of_ne {calls : String × String → WifiCalls} {devs : List (String × String)}
    (h : role ≠ .receive) : (openFirst conf role calls mode devs).2 = mode := by
  induction devs with
  | nil => rfl
  | cons dev devs ih =>
      have htry_mode : (tryDevice conf role mode dev (calls dev)).2 = mode := by
        rw [tryDevice_mode, if_neg fun hreceive ↦ h hreceive.1]
      rw [openFirst]
      match htry : tryDevice conf role mode dev (calls dev) with
      | (some sock, mode') =>
          rw [htry] at htry_mode
          exact htry_mode
      | (none, mode') =>
          rw [htry] at htry_mode
          obtain rfl : mode' = mode := htry_mode
          exact ih

end Modes

namespace OpenDevices

/-- The mode is as good as the global one, and the sockets are in the modes of their devices. -/
structure Sound (conf : INIReader) (globalMode : String) (s : OpenDevices) : Prop where
  mode : s.mode = "ground" ↔ globalMode = "ground"
  opened : ∀ sock ∈ s.opened, sock.InOwnMode conf globalMode

variable {conf : INIReader} {globalMode : String} {s : OpenDevices} {p : Poll}

theorem Sound.openRole (h : s.Sound conf globalMode)
    (hdevs : ∀ dev ∈ p.devices, conf.ReceivesAlike globalMode dev.1) (role : Role) :
    (s.openRole conf p role).Sound conf globalMode := by
  obtain ⟨hmode, hsock⟩ := openFirst_alike role (p.calls role) h.mode hdevs
  refine ⟨hmode, fun sock hmem ↦ ?_⟩
  rcases List.mem_append.mp hmem with hold | hnew
  · exact h.opened sock hold
  · exact hsock sock (Option.mem_toList.mp hnew)

theorem Sound.poll (h : s.Sound conf globalMode)
    (hdevs : ∀ dev ∈ p.devices, conf.ReceivesAlike globalMode dev.1) :
    (s.poll conf p).Sound conf globalMode := by
  rw [OpenDevices.poll]
  split
  case isTrue =>
    have hcur :
        { s with currentDevices := (p.devices.map Prod.fst).toFinset }.Sound conf globalMode :=
      ⟨h.mode, h.opened⟩
    exact ((hcur.openRole hdevs .transmit).openRole hdevs .relay).openRole hdevs .receive
  case isFalse => exact h

theorem Sound.polls {polls : List Poll} (h : s.Sound conf globalMode)
    (hdevs : ∀ p ∈ polls, ∀ dev ∈ p.devices, conf.ReceivesAlike globalMode dev.1) :
    (polls.foldl (OpenDevices.poll conf) s).Sound conf globalMode := by
  induction polls generalizing s with
  | nil => exact h
  | cons p polls ih =>
      exact ih (h.poll (hdevs p List.mem_cons_self)) fun p hp ↦ hdevs p (List.mem_cons_of_mem _ hp)

theorem mem_opened_openRole {sock : OpenSocket} (h : sock ∈ s.opened) (role : Role) :
    sock ∈ (s.openRole conf p role).opened := List.mem_append_left _ h

theorem mem_opened_poll {sock : OpenSocket} (h : sock ∈ s.opened) :
    sock ∈ (s.poll conf p).opened := by
  rw [poll]
  split
  case isTrue => exact mem_opened_openRole (mem_opened_openRole (mem_opened_openRole h _) _) _
  case isFalse => exact h

theorem mem_opened_polls {sock : OpenSocket} (polls : List Poll) (h : sock ∈ s.opened) :
    sock ∈ (polls.foldl (poll conf) s).opened := by
  induction polls generalizing s with
  | nil => exact h
  | cons p polls ih => exact ih (mem_opened_poll h)

end OpenDevices

/-! ## A run in which they do -/

/-- A device that cannot be set up. -/
def WifiCalls.refuse : WifiCalls := ⟨false, false, fun _ ↦ false, fun _ ↦ false, false⟩

/-- A device that can. -/
def WifiCalls.accept : WifiCalls := ⟨true, true, fun _ ↦ true, fun _ ↦ true, true⟩

/-- Only the devices in another mode than the global one can be set up. -/
def onlyOthers (conf : INIReader) (globalMode : String) (dev : String × String) : WifiCalls :=
  if conf.ReceivesAlike globalMode dev.1 then .refuse else .accept

section Others

variable {conf : INIReader} {mode globalMode : String} {dev : String × String}
  {devs : List (String × String)}

theorem tryDevice_refuse (role : Role) : (tryDevice conf role mode dev .refuse).1 = none := by
  have hparams : (configureDevice conf dev.1 dev.2 role mode .refuse).1 = none := by
    rw [configureDevice]
    simp [WifiCalls.refuse, apply_ite Prod.fst]
  cases role <;> simp [tryDevice, hparams]

theorem tryDevice_accept (mode : String) (h : ¬conf.Excluded .receive dev.1) :
    (tryDevice conf .receive mode dev .accept).1 = some ⟨.receive, dev.1, mode = "ground"⟩ := by
  simp [tryDevice, configureDevice, h, WifiCalls.accept]

/-- The loop for a receive device opens the first device in another mode, and not in that mode. -/
theorem openFirst_onlyOthers (hmode : mode = "ground" ↔ globalMode = "ground")
    (h : ∃ dev ∈ devs, ¬conf.ReceivesAlike globalMode dev.1) :
    ∃ sock, (openFirst conf .receive (onlyOthers conf globalMode) mode devs).1 = some sock ∧
      ¬sock.InOwnMode conf globalMode := by
  induction devs generalizing mode with
  | nil =>
      obtain ⟨dev, hmem, -⟩ := h
      cases hmem
  | cons dev devs ih =>
      rw [openFirst]
      by_cases hdev : conf.ReceivesAlike globalMode dev.1
      · have hsock : (tryDevice conf .receive mode dev (onlyOthers conf globalMode dev)).1 =
            none := by
          rw [onlyOthers, if_pos hdev]
          exact tryDevice_refuse .receive
        have halike := (tryDevice_alike .receive (onlyOthers conf globalMode dev) hmode hdev).1
        match htry : tryDevice conf .receive mode dev (onlyOthers conf globalMode dev) with
        | (some sock, mode') =>
            rw [htry] at hsock
            cases hsock
        | (none, mode') =>
            rw [htry] at halike
            refine ih halike ?_
            obtain ⟨other, hmem, hother⟩ := h
            rcases List.mem_cons.mp hmem with rfl | hmem
            · exact absurd hdev hother
            · exact ⟨other, hmem, hother⟩
      · obtain ⟨hex, hown⟩ := Classical.not_imp.mp hdev
        have hsock := tryDevice_accept mode hex
        rw [onlyOthers, if_neg hdev]
        match htry : tryDevice conf .receive mode dev .accept with
        | (none, mode') =>
            rw [htry] at hsock
            cases hsock
        | (some sock, mode') =>
            rw [htry] at hsock
            obtain rfl : sock = _ := Option.some.inj hsock
            refine ⟨_, rfl, fun hground ↦ hown ?_⟩
            exact (decide_eq_decide.mp hground).symm.trans hmode

/-- Such a device is new when it is found, since every current one is in the global mode. -/
theorem OpenDevices.change_of_other {s : OpenDevices}
    (hcur : ∀ d ∈ s.currentDevices, conf.ReceivesAlike globalMode d)
    (h : ∃ dev ∈ devs, ¬conf.ReceivesAlike globalMode dev.1) : s.change devs := by
  obtain ⟨dev, hmem, hdev⟩ := h
  exact .inr ⟨dev.1, List.mem_map_of_mem hmem, fun hin ↦ hdev (hcur _ hin)⟩

/-- The iteration that finds it opens a socket in the wrong mode. -/
theorem OpenDevices.poll_onlyOthers {s : OpenDevices}
    (hmode : s.mode = "ground" ↔ globalMode = "ground") (hchange : s.change devs)
    (h : ∃ dev ∈ devs, ¬conf.ReceivesAlike globalMode dev.1) :
    ∃ sock ∈ (s.poll conf ⟨devs, fun _ ↦ onlyOthers conf globalMode⟩).opened,
      ¬sock.InOwnMode conf globalMode := by
  rw [poll, if_pos hchange]
  let p : Poll := ⟨devs, fun _ ↦ onlyOthers conf globalMode⟩
  -- the loops for a transmit and a relay device leave the mode as it is
  let t := ({ s with currentDevices := (devs.map Prod.fst).toFinset }.openRole conf p
    .transmit).openRole conf p .relay
  have ht : t.mode = s.mode :=
    (openFirst_mode_of_ne (by decide)).trans (openFirst_mode_of_ne (by decide))
  obtain ⟨sock, hsock, hwrong⟩ := openFirst_onlyOthers (ht ▸ hmode) h
  refine ⟨sock, List.mem_append_right _ ?_, hwrong⟩
  exact Option.mem_toList.mpr hsock

theorem OpenDevices.currentDevices_poll {s : OpenDevices} {p : Poll}
    (hcur : ∀ d ∈ s.currentDevices, conf.ReceivesAlike globalMode d)
    (hdevs : ∀ dev ∈ p.devices, conf.ReceivesAlike globalMode dev.1) :
    ∀ d ∈ (s.poll conf p).currentDevices, conf.ReceivesAlike globalMode d := by
  rw [poll]
  split
  case isTrue =>
    intro d hd
    obtain ⟨dev, hmem, rfl⟩ := List.mem_map.mp (List.mem_toFinset.mp hd)
    exact hdevs dev hmem
  case isFalse => exact hcur

/-- If the lists have a device in another mode, then some run opens a socket in the wrong mode. -/
theorem OpenDevices.Sound.exists_polls {s : OpenDevices} (hs : s.Sound conf globalMode)
    (hcur : ∀ d ∈ s.currentDevices, conf.ReceivesAlike globalMode d)
    {lists : List (List (String × String))}
    (h : ∃ devs ∈ lists, ∃ dev ∈ devs, ¬conf.ReceivesAlike globalMode dev.1) :
    ∃ polls : List Poll, polls.map Poll.devices = lists ∧
      ∃ sock ∈ (polls.foldl (OpenDevices.poll conf) s).opened, ¬sock.InOwnMode conf globalMode := by
  induction lists generalizing s with
  | nil =>
      obtain ⟨devs, hmem, -⟩ := h
      cases hmem
  | cons devs lists ih =>
      let p : Poll := ⟨devs, fun _ ↦ onlyOthers conf globalMode⟩
      by_cases hdevs : ∀ dev ∈ devs, conf.ReceivesAlike globalMode dev.1
      · have hrest : ∃ devs ∈ lists, ∃ dev ∈ devs, ¬conf.ReceivesAlike globalMode dev.1 := by
          obtain ⟨devs', hmem, dev, hdev, hother⟩ := h
          rcases List.mem_cons.mp hmem with rfl | hmem
          · exact absurd (hdevs dev hdev) hother
          · exact ⟨devs', hmem, dev, hdev, hother⟩
        obtain ⟨polls, hpolls, hsock⟩ :=
          ih (hs.poll (p := p) hdevs) (currentDevices_poll hcur hdevs) hrest
        exact ⟨p :: polls, congrArg (devs :: ·) hpolls, hsock⟩
      · push Not at hdevs
        obtain ⟨sock, hsock, hwrong⟩ := poll_onlyOthers hs.mode (change_of_other hcur hdevs) hdevs
        let rest : List Poll := lists.map fun devs ↦ ⟨devs, fun _ _ ↦ .refuse⟩
        have hrest : rest.map Poll.devices = lists := List.map_map.trans (List.map_id _)
        exact ⟨p :: rest, congrArg (devs :: ·) hrest, sock, mem_opened_polls rest hsock, hwrong⟩

end Others

/-- The sockets are in the modes of their devices exactly when no device that may be received from
is in another mode than the global one. -/
theorem usesOwnMode_iff (conf : INIReader) (mode : String) (lists : List (List (String × String))) :
    UsesOwnMode conf mode lists ↔ ∀ devs ∈ lists, ∀ dev ∈ devs, conf.ReceivesAlike mode dev.1 := by
  have hsound : OpenDevices.Sound conf mode { mode } := ⟨Iff.rfl, by simp⟩
  constructor
  · intro h
    by_contra hother
    push Not at hother
    obtain ⟨polls, hpolls, sock, hsock, hwrong⟩ := hsound.exists_polls (by simp) hother
    exact hwrong (h polls hpolls sock hsock)
  · rintro hdevs polls rfl
    exact (hsound.polls fun p hp ↦ hdevs _ (List.mem_map_of_mem hp)).opened

/-- The receiver of the sample configuration, which is on the ground. -/
def groundReceiver : INIReader where
  value sec name :=
    if sec = "device-wlx9c5c8eb50353" then
      if name = "type" then some "receiver" else if name = "mode" then some "ground" else none
    else none
  integer sec name :=
    if sec = "device-wlx9c5c8eb50353" then
      if name = "frequency" then some 5825 else if name = "txpower" then some 2000
      else if name = "mcs" ∨ name = "stbc" ∨ name = "ldpc" then some 1 else none
    else none

/-- Its receive socket is opened in the global mode. -/
theorem not_usesOwnMode_groundReceiver :
    ¬UsesOwnMode groundReceiver "air" [[("wlx9c5c8eb50353", "rtl8812au")]] := by
  intro h
  exact absurd
    (h [⟨[("wlx9c5c8eb50353", "rtl8812au")], fun _ _ ↦ .accept⟩] rfl
      ⟨.receive, "wlx9c5c8eb50353", false⟩ (by decide)) (by decide)

end WfbBridge
