import Mathlib
import WfbBridge.Library.Run

/-!
# The device loop

The loop of `main` that opens the wifi devices (`wfb_bridge.cc`), with the two other threads
that meet it at `reset_wifi`: the thread that receives from the raw socket, and the one that
waits for udev events (`udev_interface.cc`).  The threads take their steps in any order, so
a run is a list of steps; a thread that has to wait stays where it is.

The threads that send and relay read `reset_wifi` and do not change it, and are left out.
A device is its name, which is all that the loop compares; its type is passed on to
`configure_device`.
-/

namespace WfbBridge

/-- Where the device loop is. -/
inductive MainAt where
  /-- at the first `reset_wifi = false` -/
  | top
  /-- about to query the list of devices -/
  | query
  /-- about to set `reset_wifi`; `devs` are the devices found -/
  | terminate (devs : List String)
  /-- waiting for the receive thread -/
  | join (devs : List String)
  /-- at the second `reset_wifi = false` -/
  | clear (devs : List String)
  /-- about to update `current_devices` -/
  | update (devs : List String)
  /-- in the loop that looks for a receive device, with `devs` still to try -/
  | configure (devs : List String)
deriving DecidableEq

/-- From the decision to restart the threads until `reset_wifi` is cleared. -/
def MainAt.Clearing : MainAt → Prop
  | .terminate _ | .join _ | .clear _ => True
  | .top | .query | .update _ | .configure _ => False

instance : (m : MainAt) → Decidable m.Clearing
  | .terminate _ | .join _ | .clear _ => isTrue trivial
  | .top | .query | .update _ | .configure _ => isFalse not_false

/-- Where the receive thread is. -/
inductive ReceiverAt where
  /-- there is none, or it has been joined -/
  | none
  /-- at `while(!reset_wifi)` -/
  | check
  /-- in `receive` -/
  | receive
  /-- it has left its loop -/
  | exited
deriving DecidableEq

/-- Where the udev monitor thread is. -/
inductive MonitorAt where
  /-- about to initialize the list of devices -/
  | init
  /-- waiting for an event -/
  | wait
  /-- the list is updated, and the flag is to be set -/
  | updated
deriving DecidableEq

/-- What the threads share, and where they are.  `usable` are the devices for which
`configure_device` and `add_device` succeed at the moment. -/
structure DeviceLoop where
  resetWifi : Bool := false
  devices : List String := []
  currentDevices : Finset String := ∅
  usable : List String := []
  main : MainAt := .top
  receiver : ReceiverAt := .none
  monitor : MonitorAt := .init
deriving DecidableEq

namespace DeviceLoop

/-- `change`, for a list of devices. -/
def change (s : DeviceLoop) (devs : List String) : Prop :=
  devs.length ≠ s.currentDevices.card ∨ ∃ d ∈ devs, d ∉ s.currentDevices

instance (s : DeviceLoop) (devs : List String) : Decidable (s.change devs) :=
  inferInstanceAs (Decidable (_ ∨ _))

/-- A step of the device loop. -/
def mainStep (s : DeviceLoop) : DeviceLoop :=
  match s.main with
  | .top => { s with resetWifi := false, main := .query }
  | .query => if s.change s.devices then { s with main := .terminate s.devices }
      else { s with main := .top }
  | .terminate devs => { s with resetWifi := true, main := .join devs }
  | .join devs =>
      if s.receiver = .none ∨ s.receiver = .exited then
        { s with receiver := .none, main := .clear devs }
      else s
  | .clear devs => { s with resetWifi := false, main := .update devs }
  | .update devs => { s with currentDevices := devs.toFinset, main := .configure devs }
  | .configure [] => { s with main := .top }
  | .configure (d :: devs) =>
      if d ∈ s.usable then { s with receiver := .check, main := .top }
      else { s with main := .configure devs }

/-- A step of the receive thread; `ok` is what `receive` returns. -/
def receiverStep (s : DeviceLoop) (ok : Bool) : DeviceLoop :=
  match s.receiver with
  | .check =>
      if s.resetWifi then { s with receiver := .exited } else { s with receiver := .receive }
  | .receive => { s with resetWifi := s.resetWifi || !ok, receiver := .check }
  | .none | .exited => s

/-- A step of the udev monitor thread; `devs` is what `update_devices` finds. -/
def monitorStep (s : DeviceLoop) (devs : List String) : DeviceLoop :=
  match s.monitor with
  | .init => { s with devices := devs, monitor := .wait }
  | .wait => { s with devices := devs, monitor := .updated }
  | .updated => { s with resetWifi := true, monitor := .wait }

/-- A step of one of the threads, or a change of the devices themselves. -/
inductive Step where
  | main
  | receiver (ok : Bool)
  | monitor (devs : List String)
  | usable (devs : List String)
deriving DecidableEq

/-- One step. -/
def step (s : DeviceLoop) : Step → DeviceLoop
  | .main => s.mainStep
  | .receiver ok => s.receiverStep ok
  | .monitor devs => s.monitorStep devs
  | .usable devs => { s with usable := devs }

/-- The receive thread is in its loop. -/
def Receiving (s : DeviceLoop) : Prop := s.receiver = .check ∨ s.receiver = .receive

instance (s : DeviceLoop) : Decidable s.Receiving := inferInstanceAs (Decidable (_ ∨ _))

/-- An iteration finds the list unchanged, with a device that could be received from, and there is
nobody who receives. -/
def SilentlyDead (s : DeviceLoop) : Prop :=
  s.main = .query ∧ ¬s.change s.devices ∧ (∃ d ∈ s.devices, d ∈ s.usable) ∧ ¬s.Receiving

instance (s : DeviceLoop) : Decidable s.SilentlyDead := inferInstanceAs (Decidable (_ ∧ _))

/-! ## When reception does not die -/

/-- The devices that the loop took up last, in order to open them. -/
def known (s : DeviceLoop) : Finset String :=
  match s.main with
  | .terminate devs | .join devs | .clear devs | .update devs => devs.toFinset
  | .top | .query | .configure _ => s.currentDevices

/-- A list of devices that the loop has not taken up yet. -/
def News (s : DeviceLoop) (devs : List String) : Prop :=
  devs.length ≠ s.known.card ∨ ∃ d ∈ devs, d ∉ s.known

instance (s : DeviceLoop) (devs : List String) : Decidable (s.News devs) :=
  inferInstanceAs (Decidable (_ ∨ _))

/-- The loop restarts the threads, and is still to clear `reset_wifi`. -/
def Clearing (s : DeviceLoop) : Prop := s.main.Clearing

instance (s : DeviceLoop) : Decidable s.Clearing :=
  inferInstanceAs (Decidable s.main.Clearing)

/-- The devices with which the loop is through: it has looked for a receive device among them. -/
def tried (s : DeviceLoop) : Finset String :=
  match s.main with
  | .top | .query => s.currentDevices
  | .configure devs => s.currentDevices \ devs.toFinset
  | _ => ∅

/-- What does not take the receive thread away for nothing: `receive` fails, and the monitor thread
sets `reset_wifi`, only when there is a new list for the loop or when the loop still clears the
flag; a udev event makes the list a new one; and no device that the loop has passed over becomes
usable, unless somebody receives or there is a new list. -/
def Allowed (s : DeviceLoop) : Step → Prop
  | .main => True
  | .receiver ok => s.receiver = .receive → ok = false → s.Clearing ∨ s.News s.devices
  | .monitor devs =>
      (s.monitor = .wait → s.News devs) ∧ (s.monitor = .updated → s.Clearing ∨ s.News s.devices)
  | .usable devs => s.Receiving ∨ s.News s.devices ∨ ∀ d ∈ s.tried, d ∈ devs → d ∈ s.usable

instance (s : DeviceLoop) : (op : Step) → Decidable (s.Allowed op)
  | .main => isTrue trivial
  | .receiver _ => inferInstanceAs (Decidable (_ → _ → _ ∨ _))
  | .monitor _ => inferInstanceAs (Decidable (_ ∧ _))
  | .usable _ => inferInstanceAs (Decidable (_ ∨ _ ∨ ∀ _ ∈ _, _))

/-- The flag is up only for a new list, or until the loop clears it; and if nobody receives, then
the loop is about to look for a receive device, or there is none. -/
structure Inv (s : DeviceLoop) : Prop where
  flag : s.resetWifi = true → s.Clearing ∨ s.News s.devices
  attended : s.Receiving ∨ s.News s.devices ∨ ∀ d ∈ s.tried, d ∉ s.usable
  /-- before the first list there is nothing to do -/
  start : s.monitor = .init → (s.main = .top ∨ s.main = .query) ∧ s.devices = [] ∧
    s.currentDevices = ∅ ∧ s.resetWifi = false ∧ s.receiver = .none

variable {s : DeviceLoop}

theorem Inv.init : ({} : DeviceLoop).Inv where
  flag := nofun
  attended := .inr (.inr (by simp [tried]))
  start _ := ⟨.inl rfl, rfl, rfl, rfl, rfl⟩

/-- A loop that is not through with any device has nothing to answer for. -/
theorem attended_of_tried (h : s.tried = ∅) :
    s.Receiving ∨ s.News s.devices ∨ ∀ d ∈ s.tried, d ∉ s.usable := by
  refine .inr (.inr fun d hd ↦ ?_)
  rw [h] at hd
  exact absurd hd (Finset.notMem_empty d)

/-- Away from its top the loop has been given a list. -/
theorem Inv.monitor_ne_init (h : s.Inv) (htop : s.main ≠ .top) (hquery : s.main ≠ .query) :
    s.monitor ≠ .init := fun hinit ↦ (h.start hinit).1.elim htop hquery

theorem Inv.mainStep (h : s.Inv) : s.mainStep.Inv := by
  rw [DeviceLoop.mainStep]
  cases hmain : s.main with
  | top =>
      refine ⟨nofun, ?_, fun hinit ↦ ?_⟩
      · simpa only [Receiving, News, known, tried, hmain] using h.attended
      · obtain ⟨-, hdevices, hcurrent, -, hreceiver⟩ := h.start hinit
        exact ⟨.inr rfl, hdevices, hcurrent, rfl, hreceiver⟩
  | query =>
      simp only
      by_cases hchange : s.change s.devices
      · rw [if_pos hchange]
        refine ⟨fun _ ↦ .inl trivial, attended_of_tried rfl, fun hinit ↦ ?_⟩
        obtain ⟨-, hdevices, hcurrent, -⟩ := h.start hinit
        simp [change, hdevices, hcurrent] at hchange
      · rw [if_neg hchange]
        refine ⟨?_, ?_, fun hinit ↦ ?_⟩
        · simpa only [Clearing, MainAt.Clearing, News, known, hmain] using h.flag
        · simpa only [Receiving, News, known, tried, hmain] using h.attended
        · obtain ⟨-, hstart⟩ := h.start hinit
          exact ⟨.inl rfl, hstart⟩
  | terminate devs =>
      exact ⟨fun _ ↦ .inl trivial, attended_of_tried rfl,
        fun hinit ↦ absurd hinit (h.monitor_ne_init (by simp [hmain]) (by simp [hmain]))⟩
  | join devs =>
      simp only
      split
      · exact ⟨fun _ ↦ .inl trivial, attended_of_tried rfl,
          fun hinit ↦ absurd hinit (h.monitor_ne_init (by simp [hmain]) (by simp [hmain]))⟩
      · exact h
  | clear devs =>
      exact ⟨nofun, attended_of_tried rfl,
        fun hinit ↦ absurd hinit (h.monitor_ne_init (by simp [hmain]) (by simp [hmain]))⟩
  | update devs =>
      refine ⟨fun hreset ↦ ?_, attended_of_tried (Finset.sdiff_self _),
        fun hinit ↦ absurd hinit (h.monitor_ne_init (by simp [hmain]) (by simp [hmain]))⟩
      have hflag := h.flag hreset
      simp only [Clearing, MainAt.Clearing, hmain, false_or] at hflag
      exact .inr (by simpa only [News, known, hmain] using hflag)
  | configure devs =>
      have hinit : s.monitor ≠ .init := h.monitor_ne_init (by simp [hmain]) (by simp [hmain])
      have hflag (hreset : s.resetWifi = true) : s.News s.devices := by
        simpa only [Clearing, MainAt.Clearing, hmain, false_or] using h.flag hreset
      cases devs with
      | nil =>
          refine ⟨fun hreset ↦ .inr ?_, ?_, fun h' ↦ absurd h' hinit⟩
          · simpa only [News, known, hmain] using hflag hreset
          · simpa [Receiving, News, known, tried, hmain] using h.attended
      | cons d devs =>
          simp only
          split
          case isTrue =>
            refine ⟨fun hreset ↦ .inr ?_, .inl (.inl rfl), fun h' ↦ absurd h' hinit⟩
            simpa only [News, known, hmain] using hflag hreset
          case isFalse husable =>
            refine ⟨fun hreset ↦ .inr ?_, ?_, fun h' ↦ absurd h' hinit⟩
            · simpa only [News, known, hmain] using hflag hreset
            · refine h.attended.imp_right (.imp ?_ fun hnone d' hd' ↦ ?_)
              · simp only [News, known, hmain, imp_self]
              · obtain ⟨hcurrent, hrest⟩ := Finset.mem_sdiff.mp hd'
                by_cases heq : d' = d
                · rwa [heq]
                · refine hnone d' ?_
                  rw [tried, hmain]
                  refine Finset.mem_sdiff.mpr ⟨hcurrent, ?_⟩
                  simpa [heq] using hrest

/-- The receive thread leaves its loop for a new list, or when it is to be joined. -/
theorem Inv.receiverStep (h : s.Inv) {ok : Bool} (hok : s.Allowed (.receiver ok)) :
    (s.receiverStep ok).Inv := by
  rw [DeviceLoop.receiverStep]
  cases hreceiver : s.receiver with
  | none => exact h
  | exited => exact h
  | receive =>
      refine ⟨fun hreset ↦ ?_, .inl (.inl rfl), fun hinit ↦ ?_⟩
      · cases ok with
        | false => exact hok hreceiver rfl
        | true => exact h.flag (by simpa using hreset)
      · obtain ⟨-, -, -, -, hnone⟩ := h.start hinit
        rw [hreceiver] at hnone
        cases hnone
  | check =>
      have hinit : s.monitor ≠ .init := fun hinit ↦ by
        obtain ⟨-, -, -, -, hnone⟩ := h.start hinit
        rw [hreceiver] at hnone
        cases hnone
      simp only
      split
      case isTrue hreset =>
        refine ⟨h.flag, ?_, fun h' ↦ absurd h' hinit⟩
        rcases h.flag hreset with hclearing | hnews
        · refine attended_of_tried ?_
          rw [Clearing] at hclearing
          rw [tried]
          cases hmain : s.main <;> simp [MainAt.Clearing, hmain] at hclearing ⊢
        · exact .inr (.inl hnews)
      case isFalse => exact ⟨h.flag, .inl (.inr rfl), fun h' ↦ absurd h' hinit⟩

theorem Inv.monitorStep (h : s.Inv) {devs : List String} (hok : s.Allowed (.monitor devs)) :
    (s.monitorStep devs).Inv := by
  rw [DeviceLoop.monitorStep]
  cases hmonitor : s.monitor with
  | init =>
      obtain ⟨hmain, -, hcurrent, hreset, -⟩ := h.start hmonitor
      refine ⟨fun h' ↦ ?_, attended_of_tried ?_, nofun⟩
      · rw [hreset] at h'
        cases h'
      · rw [tried]
        rcases hmain with hmain | hmain <;> simp only [hmain, hcurrent]
  | wait =>
      have hnews : s.News devs := hok.1 hmonitor
      exact ⟨fun _ ↦ .inr hnews, .inr (.inl hnews), nofun⟩
  | updated => exact ⟨fun _ ↦ hok.2 hmonitor, h.attended, nofun⟩

theorem Inv.usable (h : s.Inv) {devs : List String} (hok : s.Allowed (.usable devs)) :
    { s with usable := devs }.Inv := by
  refine ⟨h.flag, ?_, h.start⟩
  rcases h.attended with hreceiving | hnews | hnone
  · exact .inl hreceiving
  · exact .inr (.inl hnews)
  · refine hok.imp_right (.imp_right fun hsame d hd husable ↦ ?_)
    exact hnone d hd (hsame d hd husable)

theorem Inv.step (h : s.Inv) {op : Step} (hop : s.Allowed op) : (s.step op).Inv := by
  cases op with
  | main => exact h.mainStep
  | receiver ok => exact h.receiverStep hop
  | monitor devs => exact h.monitorStep hop
  | usable devs => exact h.usable hop

/-- In a run of such steps reception is never silently dead. -/
theorem not_silentlyDead (steps : List Step) (h : Run.AlongFold step Allowed {} steps) :
    ¬(steps.foldl step {}).SilentlyDead := by
  have hinv : (steps.foldl step {}).Inv :=
    Run.AlongFold.inv (P := Inv) (fun _ _ hs hop ↦ hs.step hop) .init h
  rintro ⟨hmain, hchange, ⟨d, hd, husable⟩, hreceiving⟩
  have hnews : ¬(steps.foldl step {}).News (steps.foldl step {}).devices := by
    rwa [News, known, hmain]
  have hnone := (hinv.attended.resolve_left hreceiving).resolve_left hnews
  have hcurrent : d ∈ (steps.foldl step {}).currentDevices := by
    by_contra hnot
    exact hchange (.inr ⟨d, hd, hnot⟩)
  refine hnone d ?_ husable
  rw [tried, hmain]
  exact hcurrent

/-- A device is plugged in, and another one later. -/
theorem not_silentlyDead_second_device :
    ¬([.usable ["wlan0", "wlan1"], .monitor ["wlan0"], .main, .main, .main, .main, .main, .main,
      .main, .receiver true, .receiver true, .monitor ["wlan0", "wlan1"], .monitor [],
      .receiver true, .main, .main, .main, .main, .main, .main, .main, .receiver true,
      .main].foldl step {}).SilentlyDead :=
  not_silentlyDead _ (by decide)

/-- A failed `receive`, and the list of devices is the same: the receive thread is gone. -/
theorem silentlyDead_after_failed_receive :
    ([.usable ["wlan0"], .monitor ["wlan0"], .main, .main, .main, .main, .main, .main, .main,
      .receiver true, .receiver false, .receiver true, .main].foldl step {}).SilentlyDead := by
  decide

end DeviceLoop

end WfbBridge
