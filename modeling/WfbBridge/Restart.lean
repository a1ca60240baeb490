import Mathlib
import WfbBridge.Bridge.Links
import WfbBridge.DeviceMode
import WfbBridge.Library.Pool
import WfbBridge.Radio.Receive
import WfbBridge.SharedQueue

/-!
# Restarting the wifi threads

The device loop of `main` (`wfb_bridge.cc`) in full, with the threads it stops and starts: the one
that sends (`raw_send_thread`), the one that relays (`raw_relay_thread`) and the one that receives.
A thread that waits in `pop` does not look at `reset_wifi`, so `main` pushes an empty message before
it joins.

The queue of messages to send outlives its threads, and each relay thread has a queue of its own.  A
receive thread keeps the relay queue that was there when it started.  An empty message is `none`.
-/

namespace WfbBridge

/-- Where `raw_send_thread` or `raw_relay_thread` is. -/
inductive WorkerAt (α : Type) where
  /-- at `while(!terminate)` -/
  | check
  /-- in `pop` -/
  | pop
  /-- with a message that it is about to send -/
  | handle (m : Option α)
  /-- it has left its loop -/
  | exited
deriving DecidableEq

namespace WorkerAt

variable {α : Type}

/-- A step of the loop. -/
def step (terminate : Bool) (q : SharedQueue (Option α)) :
    WorkerAt α → WorkerAt α × SharedQueue (Option α)
  | .check => (if terminate then .exited else .pop, q)
  | .pop =>
      match q.tryPop with
      | (none, q) => (.pop, q)
      | (some m, q) => (.handle m, q)
  | .handle _ => (.check, q)
  | .exited => (.exited, q)

/-- The message it sends in its next step. -/
def sends : WorkerAt α → List α
  | .handle (some m) => [m]
  | _ => []

/-- The steps to its end, once it has been told and there is something to pop. -/
def rank : WorkerAt α → ℕ
  | .check => 1
  | .pop => 3
  | .handle _ => 2
  | .exited => 0

end WorkerAt

/-- The steps to the end of a receive thread, once it has been told. -/
def ReceiverAt.rank : ReceiverAt → ℕ
  | .check => 1
  | .receive => 2
  | .none | .exited => 0

/-- What `RawReceiveSocket::receive` returns. -/
inductive ReceiveResult where
  | failed
  | nothing
  | message (m : MonitorMessage)
deriving DecidableEq

/-- Where the device loop is; `devs` are the devices found. -/
inductive RestartAt where
  | top
  | query
  | terminate (devs : List String)
  | joinReceiver (devs : List String)
  | wakeSender (devs : List String)
  | joinSender (devs : List String)
  | wakeRelay (devs : List String)
  | joinRelay (devs : List String)
  | clear (devs : List String)
  | update (devs : List String)
  /-- in the loop that looks for a device to send on, with `rest` still to try -/
  | send (rest devs : List String)
  | relay (rest devs : List String)
  | receive (rest : List String)
deriving DecidableEq

/-- A relay thread, with its queue. -/
structure RelayThread where
  loc : WorkerAt MonitorMessage := .check
  queue : SharedQueue (Option MonitorMessage)
deriving DecidableEq

/-- A receive thread, with the relay queue it keeps. -/
structure ReceiveThread where
  loc : ReceiverAt := .check
  relayQueue : Option ℕ
deriving DecidableEq

/-- What the threads share, and where they are.  `usable` are the devices for which
`configure_device` and `add_device` succeed at the moment; `relayQueue` is the relay thread whose
queue `relay_queue` is.  `sent` are the messages that were sent: no step reads them. -/
structure Restart where
  maxQueueSize : ℕ
  resetWifi : Bool := false
  devices : List String := []
  currentDevices : Finset String := ∅
  usable : Role → List String := fun _ ↦ []
  main : RestartAt := .top
  monitor : MonitorAt := .init
  outqueue : SharedQueue (Option Message) := .new maxQueueSize
  senders : Pool (WorkerAt Message) := {}
  relays : Pool RelayThread := {}
  receivers : Pool ReceiveThread := {}
  relayQueue : Option ℕ := none
  sent : List Message := []

namespace Restart

/-- `change`. -/
def change (s : Restart) (devs : List String) : Prop :=
  devs.length ≠ s.currentDevices.card ∨ ∃ d ∈ devs, d ∉ s.currentDevices

instance (s : Restart) (devs : List String) : Decidable (s.change devs) :=
  inferInstanceAs (Decidable (_ ∨ _))

/-- The steps to the end of the send thread, if there is one. -/
def senderRank (s : Restart) : ℕ := s.senders.held.elim 0 WorkerAt.rank

def relayRank (s : Restart) : ℕ := s.relays.held.elim 0 fun t ↦ t.loc.rank

def receiverRank (s : Restart) : ℕ := s.receivers.held.elim 0 fun t ↦ t.loc.rank

/-- A message for a relay queue. -/
def pushRelay (s : Restart) (i : Option ℕ) (m : Option MonitorMessage) : Restart :=
  match i.bind (fun i ↦ s.relays.threads[i]?.map (i, ·)) with
  | none => s
  | some (i, t) => { s with relays := s.relays.update i { t with queue := t.queue.push m } }

/-- A step of the device loop.  `join` waits until the thread has come to its end. -/
def mainStep (s : Restart) : Restart :=
  match s.main with
  | .top => { s with resetWifi := false, main := .query }
  | .query =>
      if s.change s.devices then { s with main := .terminate s.devices }
      else { s with main := .top }
  | .terminate devs => { s with resetWifi := true, main := .joinReceiver devs }
  | .joinReceiver devs =>
      if s.receiverRank = 0 then { s with
        receivers := s.receivers.release
        main := .wakeSender devs }
      else s
  | .wakeSender devs => { s with
      outqueue := if s.senders.handle.isSome then s.outqueue.push none else s.outqueue
      main := .joinSender devs }
  | .joinSender devs =>
      if s.senderRank = 0 then { s with senders := s.senders.release, main := .wakeRelay devs }
      else s
  | .wakeRelay devs =>
      { (if s.relays.handle.isSome then s.pushRelay s.relayQueue none else s) with
        main := .joinRelay devs }
  | .joinRelay devs =>
      if s.relayRank = 0 then { s with relays := s.relays.release, main := .clear devs } else s
  | .clear devs => { s with resetWifi := false, main := .update devs }
  | .update devs => { s with currentDevices := devs.toFinset, main := .send devs devs }
  | .send [] devs => { s with main := .relay devs devs }
  | .send (d :: rest) devs =>
      if d ∈ s.usable .transmit then
        { s with senders := s.senders.start .check, main := .relay devs devs }
      else { s with main := .send rest devs }
  | .relay [] devs => { s with main := .receive devs }
  | .relay (d :: rest) devs =>
      if d ∈ s.usable .relay then { s with
        relays := s.relays.start { queue := .new s.maxQueueSize }
        relayQueue := some s.relays.threads.length
        main := .receive devs }
      else { s with main := .relay rest devs }
  | .receive [] => { s with main := .top }
  | .receive (d :: rest) =>
      if d ∈ s.usable .receive then { s with
        receivers := s.receivers.start { relayQueue := s.relayQueue }
        main := .top }
      else { s with main := .receive rest }

/-- A step of send thread `i`. -/
def senderStep (s : Restart) (i : ℕ) : Restart :=
  match s.senders.threads[i]? with
  | none => s
  | some t => { s with
      outqueue := (t.step s.resetWifi s.outqueue).2
      senders := s.senders.update i (t.step s.resetWifi s.outqueue).1
      sent := s.sent ++ t.sends }

/-- A step of relay thread `i`. -/
def relayStep (s : Restart) (i : ℕ) : Restart :=
  match s.relays.threads[i]? with
  | none => s
  | some t =>
      let (loc, queue) := t.loc.step s.resetWifi t.queue
      { s with relays := s.relays.update i { loc, queue } }

/-- What a receive thread does with the result of `receive`. -/
def received (s : Restart) (relayQueue : Option ℕ) : ReceiveResult → Restart
  | .failed => { s with resetWifi := true }
  | .nothing => s
  | .message m => s.pushRelay relayQueue (some m)

/-- A step of receive thread `i`. -/
def receiverStep (s : Restart) (i : ℕ) (r : ReceiveResult) : Restart :=
  match s.receivers.threads[i]? with
  | none => s
  | some t =>
      match t.loc with
      | .check =>
          let t := { t with loc := if s.resetWifi then .exited else .receive }
          { s with receivers := s.receivers.update i t }
      | .receive =>
          { s with receivers := s.receivers.update i { t with loc := .check } }.received
            t.relayQueue r
      | .none | .exited => s

/-- A step of the udev monitor thread. -/
def monitorStep (s : Restart) (devs : List String) : Restart :=
  match s.monitor with
  | .init => { s with devices := devs, monitor := .wait }
  | .wait => { s with devices := devs, monitor := .updated }
  | .updated => { s with resetWifi := true, monitor := .wait }

/-- A step of one of the threads, a message from `tun_raw_thread`, or a change of the devices. -/
inductive Step where
  | main
  | sender (i : ℕ)
  | relay (i : ℕ)
  | receiver (i : ℕ) (r : ReceiveResult)
  | monitor (devs : List String)
  | usable (role : Role) (devs : List String)
  | push (m : Message)
deriving DecidableEq

/-- One step. -/
def step (s : Restart) : Step → Restart
  | .main => s.mainStep
  | .sender i => s.senderStep i
  | .relay i => s.relayStep i
  | .receiver i r => s.receiverStep i r
  | .monitor devs => s.monitorStep devs
  | .usable role devs => { s with usable := Function.update s.usable role devs }
  | .push m => { s with outqueue := s.outqueue.push (some m) }

/-- A run from the start of the device loop. -/
def run (maxQueueSize : ℕ) (steps : List Step) : Restart := steps.foldl step { maxQueueSize }

/-! ## One thread of each kind -/

/-- How far the device loop is. -/
def stage (s : Restart) : ℕ :=
  match s.main with
  | .top => 0
  | .query => 1
  | .terminate _ => 2
  | .joinReceiver _ => 3
  | .wakeSender _ => 4
  | .joinSender _ => 5
  | .wakeRelay _ => 6
  | .joinRelay _ => 7
  | .clear _ => 8
  | .update _ => 9
  | .send _ _ => 10
  | .relay _ _ => 11
  | .receive _ => 12

/-- Only the threads that are held may be running, and none is held when the next one is started.
From `terminate` to `clear` the threads are told to end. -/
structure Inv (s : Restart) : Prop where
  senders : s.senders.Tidy fun t ↦ t.rank = 0
  relays : s.relays.Tidy fun t ↦ t.loc.rank = 0
  receivers : s.receivers.Tidy fun t ↦ t.loc.rank = 0
  resetWifi : 3 ≤ s.stage → s.stage ≤ 8 → s.resetWifi = true
  receivers_handle : 4 ≤ s.stage → s.receivers.handle = none
  senders_handle : 6 ≤ s.stage → s.stage ≤ 10 → s.senders.handle = none
  relays_handle : 8 ≤ s.stage → s.stage ≤ 11 → s.relays.handle = none
  relayQueue : ∀ i, s.relays.handle = some i → s.relayQueue = some i

variable {s : Restart}

theorem rank_eq_zero_iff {α : Type} {t : WorkerAt α} : t.rank = 0 ↔ t = .exited := by
  cases t <;> simp [WorkerAt.rank]

/-- A push to a relay queue changes that queue only. -/
theorem pushRelay_cases (s : Restart) (i : Option ℕ) (m : Option MonitorMessage) :
    s.pushRelay i m = s ∧ (∀ j, i = some j → s.relays.threads[j]? = none) ∨
      ∃ j t, i = some j ∧ s.relays.threads[j]? = some t ∧ s.pushRelay i m =
        { s with relays := s.relays.update j { t with queue := t.queue.push m } } := by
  rw [pushRelay]
  cases i with
  | none => exact .inl ⟨rfl, by simp⟩
  | some j =>
      cases hj : s.relays.threads[j]? with
      | none =>
          refine .inl ⟨by simp [hj], fun k hk ↦ ?_⟩
          rw [← Option.some.inj hk, hj]
      | some t => exact .inr ⟨j, t, rfl, hj, by simp [hj]⟩

/-- What a receive thread may do: it looks at `reset_wifi`, or it comes back from `receive`, or it
has come to its end. -/
theorem receiverStep_cases (s : Restart) (i : ℕ) (r : ReceiveResult) :
    s.receiverStep i r = s ∧ (∀ t, s.receivers.threads[i]? = some t → t.loc.rank = 0) ∨
      ∃ t, s.receivers.threads[i]? = some t ∧ (t.loc = .check ∧ s.receiverStep i r = { s with
        receivers :=
  s.receivers.update i { t with loc := if s.resetWifi then .exited else .receive } } ∨
      t.loc = .receive ∧ s.receiverStep i r =
        { s with receivers := s.receivers.update i { t with loc := .check } }.received t.relayQueue
          r) := by
  rw [receiverStep]
  cases ht : s.receivers.threads[i]? with
  | none => exact .inl ⟨rfl, by simp⟩
  | some t =>
      cases hloc : t.loc with
      | none | exited =>
          refine .inl ⟨by simp only [hloc], fun t' ht' ↦ ?_⟩
          rw [← Option.some.inj ht', hloc]
          rfl
      | check => exact .inr ⟨t, rfl, .inl ⟨hloc, by simp only [hloc]⟩⟩
      | receive => exact .inr ⟨t, rfl, .inr ⟨hloc, by simp only [hloc]⟩⟩

theorem held_rank {τ : Type} {p : Pool τ} {f : τ → ℕ} (h : p.held.elim 0 f = 0) :
    ∀ t ∈ p.held, f t = 0 := by
  intro t ht
  rwa [Option.mem_def.mp ht] at h

theorem Inv.mainStep (h : s.Inv) : s.mainStep.Inv := by
  obtain ⟨hs, hr, hv, hreset, hvh, hsh, hrh, hq⟩ := h
  rw [Restart.mainStep]
  cases hmain : s.main with
  | top =>
      exact ⟨hs, hr, hv, by simp [stage], by simp [stage], by simp [stage], by simp [stage], hq⟩
  | query =>
      simp only
      split
      · exact ⟨hs, hr, hv, by simp [stage], by simp [stage], by simp [stage], by simp [stage], hq⟩
      · exact ⟨hs, hr, hv, by simp [stage], by simp [stage], by simp [stage], by simp [stage], hq⟩
  | terminate devs =>
      exact ⟨hs, hr, hv, by simp [stage], by simp [stage], by simp [stage], by simp [stage], hq⟩
  | joinReceiver devs =>
      simp only
      split
      case isTrue hrank =>
        refine ⟨hs, hr, hv.release (held_rank hrank), ?_,
          fun _ ↦ rfl, by simp [stage], by simp [stage], hq⟩
        exact fun _ _ ↦ hreset (by simp [stage, hmain]) (by simp [stage, hmain])
      case isFalse => exact ⟨hs, hr, hv, hreset, hvh, hsh, hrh, hq⟩
  | wakeSender devs =>
      simp only [stage, hmain] at hreset hvh
      exact ⟨hs, hr, hv, fun _ _ ↦ hreset (by decide) (by decide),
        fun _ ↦ hvh (by decide), by simp [stage], by simp [stage], hq⟩
  | joinSender devs =>
      simp only
      split
      case isTrue hrank =>
        simp only [stage, hmain] at hreset hvh
        exact ⟨hs.release (held_rank hrank), hr, hv, fun _ _ ↦ hreset (by decide) (by decide),
          fun _ ↦ hvh (by decide), fun _ _ ↦ rfl, by simp [stage], hq⟩
      case isFalse => exact ⟨hs, hr, hv, hreset, hvh, hsh, hrh, hq⟩
  | wakeRelay devs =>
      simp only [stage, hmain] at hreset hvh hsh
      simp only
      split
      · rcases s.pushRelay_cases s.relayQueue none with ⟨heq, -⟩ | ⟨j, t, -, ht, heq⟩
        · rw [heq]
          exact ⟨hs, hr, hv, fun _ _ ↦ hreset (by decide) (by decide), fun _ ↦ hvh (by decide),
            fun _ _ ↦ hsh (by decide) (by decide), by simp [stage], hq⟩
        · rw [heq]
          exact ⟨hs, hr.update ht id, hv, fun _ _ ↦ hreset (by decide) (by decide),
            fun _ ↦ hvh (by decide), fun _ _ ↦ hsh (by decide) (by decide), by simp [stage], hq⟩
      · exact ⟨hs, hr, hv, fun _ _ ↦ hreset (by decide) (by decide), fun _ ↦ hvh (by decide),
          fun _ _ ↦ hsh (by decide) (by decide), by simp [stage], hq⟩
  | joinRelay devs =>
      simp only
      split
      case isTrue hrank =>
        simp only [stage, hmain] at hreset hvh hsh
        exact ⟨hs, hr.release (held_rank hrank), hv, fun _ _ ↦ hreset (by decide) (by decide),
          fun _ ↦ hvh (by decide), fun _ _ ↦ hsh (by decide) (by decide),
            fun _ _ ↦ rfl, by simp [Pool.release]⟩
      case isFalse => exact ⟨hs, hr, hv, hreset, hvh, hsh, hrh, hq⟩
  | clear devs =>
      simp only [stage, hmain] at hvh hsh hrh
      exact ⟨hs, hr, hv, by simp [stage], fun _ ↦ hvh (by decide),
        fun _ _ ↦ hsh (by decide) (by decide), fun _ _ ↦ hrh (by decide) (by decide), hq⟩
  | update devs =>
      simp only [stage, hmain] at hvh hsh hrh
      exact ⟨hs, hr, hv, by simp [stage], fun _ ↦ hvh (by decide),
        fun _ _ ↦ hsh (by decide) (by decide), fun _ _ ↦ hrh (by decide) (by decide), hq⟩
  | send rest devs =>
      simp only [stage, hmain] at hvh hsh hrh
      cases rest with
      | nil => exact ⟨hs, hr, hv, by simp [stage], fun _ ↦ hvh (by decide), by simp [stage],
          fun _ _ ↦ hrh (by decide) (by decide), hq⟩
      | cons d rest =>
          simp only
          split
          · exact ⟨hs.start (hsh (by decide) (by decide)), hr, hv, by simp [stage],
              fun _ ↦ hvh (by decide), by simp [stage], fun _ _ ↦ hrh (by decide) (by decide), hq⟩
          · exact ⟨hs, hr, hv, by simp [stage], fun _ ↦ hvh (by decide),
              fun _ _ ↦ hsh (by decide) (by decide), fun _ _ ↦ hrh (by decide) (by decide), hq⟩
  | relay rest devs =>
      simp only [stage, hmain] at hvh hrh
      cases rest with
      | nil =>
          exact ⟨hs, hr, hv, by simp [stage],
            fun _ ↦ hvh (by decide), by simp [stage], by simp [stage], hq⟩
      | cons d rest =>
          simp only
          split
          · exact ⟨hs, hr.start (hrh (by decide) (by decide)), hv, by simp [stage],
              fun _ ↦ hvh (by decide), by simp [stage], by simp [stage], fun i hi ↦ hi⟩
          · exact ⟨hs, hr, hv, by simp [stage], fun _ ↦ hvh (by decide), by simp [stage],
              fun _ _ ↦ hrh (by decide) (by decide), hq⟩
  | receive rest =>
      simp only [stage, hmain] at hvh
      cases rest with
      | nil =>
          exact ⟨hs, hr, hv, by simp [stage], by simp [stage], by simp [stage], by simp [stage], hq⟩
      | cons d rest =>
          simp only
          split
          · exact ⟨hs, hr,
              hv.start (hvh (by decide)), by simp [stage], by simp [stage], by simp [stage],
              by simp [stage], hq⟩
          · exact ⟨hs, hr, hv, by simp [stage],
              fun _ ↦ hvh (by decide), by simp [stage], by simp [stage], hq⟩

/-- A thread that has left its loop takes no more steps. -/
theorem step_of_rank {α : Type} {t : WorkerAt α} (h : t.rank = 0) (terminate : Bool)
    (q : SharedQueue (Option α)) : t.step terminate q = (t, q) ∧ t.sends = [] := by
  obtain rfl := rank_eq_zero_iff.mp h
  exact ⟨rfl, rfl⟩

theorem Inv.senderStep (h : s.Inv) (i : ℕ) : (s.senderStep i).Inv := by
  rw [Restart.senderStep]
  cases ht : s.senders.threads[i]? with
  | none => exact h
  | some t =>
      refine ⟨h.senders.update ht fun hrank ↦ ?_, h.relays, h.receivers, h.resetWifi,
        h.receivers_handle, h.senders_handle, h.relays_handle, h.relayQueue⟩
      rw [(step_of_rank hrank _ _).1]
      exact hrank

theorem Inv.relayStep (h : s.Inv) (i : ℕ) : (s.relayStep i).Inv := by
  rw [Restart.relayStep]
  cases ht : s.relays.threads[i]? with
  | none => exact h
  | some t =>
      refine ⟨h.senders, h.relays.update ht fun hrank ↦ ?_, h.receivers, h.resetWifi,
        h.receivers_handle, h.senders_handle, h.relays_handle, h.relayQueue⟩
      rw [(step_of_rank hrank _ _).1]
      exact hrank

theorem Inv.received (h : s.Inv) (i : Option ℕ) (r : ReceiveResult) : (s.received i r).Inv := by
  cases r with
  | failed =>
      exact ⟨h.senders, h.relays, h.receivers, fun _ _ ↦ rfl, h.receivers_handle, h.senders_handle,
        h.relays_handle, h.relayQueue⟩
  | nothing => exact h
  | message m =>
      rw [Restart.received]
      rcases s.pushRelay_cases i (some m) with ⟨heq, -⟩ | ⟨j, t, -, ht, heq⟩
      · rwa [heq]
      · rw [heq]
        exact ⟨h.senders, h.relays.update ht id, h.receivers, h.resetWifi, h.receivers_handle,
          h.senders_handle, h.relays_handle, h.relayQueue⟩

theorem Inv.receiverStep (h : s.Inv) (i : ℕ) (r : ReceiveResult) : (s.receiverStep i r).Inv := by
  -- a thread that is running may be anywhere after its step
  have hmoved : ∀ t loc, s.receivers.threads[i]? = some t → t.loc.rank ≠ 0 →
      { s with receivers := s.receivers.update i { t with loc } }.Inv := fun t loc ht hrank ↦
    ⟨h.senders, h.relays, h.receivers.update ht fun hzero ↦ absurd hzero hrank, h.resetWifi,
      h.receivers_handle, h.senders_handle, h.relays_handle, h.relayQueue⟩
  rcases s.receiverStep_cases i r with ⟨heq, -⟩ | ⟨t, ht, ⟨hloc, heq⟩ | ⟨hloc, heq⟩⟩
  · rwa [heq]
  · rw [heq]
    exact hmoved t _ ht (by rw [hloc]; decide)
  · rw [heq]
    exact (hmoved t .check ht (by rw [hloc]; decide)).received t.relayQueue r

theorem Inv.monitorStep (h : s.Inv) (devs : List String) : (s.monitorStep devs).Inv := by
  rw [Restart.monitorStep]
  cases s.monitor with
  | init =>
      exact ⟨h.senders, h.relays, h.receivers, h.resetWifi, h.receivers_handle, h.senders_handle,
        h.relays_handle, h.relayQueue⟩
  | wait =>
      exact ⟨h.senders, h.relays, h.receivers, h.resetWifi, h.receivers_handle, h.senders_handle,
        h.relays_handle, h.relayQueue⟩
  | updated =>
      exact ⟨h.senders, h.relays, h.receivers, fun _ _ ↦ rfl, h.receivers_handle, h.senders_handle,
        h.relays_handle, h.relayQueue⟩

theorem Inv.step (h : s.Inv) (op : Step) : (s.step op).Inv := by
  cases op with
  | main => exact h.mainStep
  | sender i => exact h.senderStep i
  | relay i => exact h.relayStep i
  | receiver i r => exact h.receiverStep i r
  | monitor devs => exact h.monitorStep devs
  | usable role devs => exact ⟨h.senders, h.relays, h.receivers, h.resetWifi, h.receivers_handle,
      h.senders_handle, h.relays_handle, h.relayQueue⟩
  | push m =>
      exact ⟨h.senders, h.relays, h.receivers, h.resetWifi, h.receivers_handle, h.senders_handle,
        h.relays_handle, h.relayQueue⟩

theorem inv_run (maxQueueSize : ℕ) (steps : List Step) : (run maxQueueSize steps).Inv := by
  rw [run]
  refine List.foldlRecOn steps Restart.step ?_ fun s hs op _ ↦ hs.step op
  exact ⟨by simp [Pool.Tidy], by simp [Pool.Tidy], by simp [Pool.Tidy], by simp [stage],
    by simp [stage], by simp [stage], by simp [stage], by simp⟩

/-- At any time at most one thread of each kind is running,
so only one of them uses the encoders. -/
theorem one_thread_of_each_kind (maxQueueSize : ℕ) (steps : List Step) (i j : ℕ) :
    (∀ t t', (run maxQueueSize steps).senders.threads[i]? = some t →
      (run maxQueueSize steps).senders.threads[j]? = some t' → t.rank ≠ 0 → t'.rank ≠ 0 → i = j) ∧
    (∀ t t', (run maxQueueSize steps).relays.threads[i]? = some t →
      (run maxQueueSize steps).relays.threads[j]? = some t' → t.loc.rank ≠ 0 → t'.loc.rank ≠ 0 →
        i = j) ∧
    ∀ t t', (run maxQueueSize steps).receivers.threads[i]? = some t →
      (run maxQueueSize steps).receivers.threads[j]? = some t' → t.loc.rank ≠ 0 → t'.loc.rank ≠ 0 →
        i = j := by
  have h := inv_run maxQueueSize steps
  refine ⟨fun t t' ht ht' hrun hrun' ↦ ?_, fun t t' ht ht' hrun hrun' ↦ ?_,
    fun t t' ht ht' hrun hrun' ↦ ?_⟩
  · exact Option.some.inj ((h.senders.handle_eq ht hrun).symm.trans (h.senders.handle_eq ht' hrun'))
  · exact Option.some.inj ((h.relays.handle_eq ht hrun).symm.trans (h.relays.handle_eq ht' hrun'))
  · exact Option.some.inj
      ((h.receivers.handle_eq ht hrun).symm.trans (h.receivers.handle_eq ht' hrun'))

/-! ## The messages -/

/-- The message the send thread has in hand. -/
def inHand (s : Restart) : List Message := s.senders.held.elim [] WorkerAt.sends

/-- The messages that were sent, the one in hand, and those that wait. -/
def ledger (s : Restart) : List Message := s.sent ++ s.inHand ++ s.outqueue.queue.reduceOption

/-- The message a step adds to the queue, if there is room. -/
def accepts (s : Restart) : Step → List Message
  | .push m => if s.outqueue.size < s.outqueue.maxSize then [m] else []
  | _ => []

/-- The messages that `tun_raw_thread` pushes. -/
def pushes (steps : List Step) : List Message :=
  steps.filterMap fun
    | .push m => some m
    | _ => none

/-- A receive thread has nothing to do with the messages to send. -/
theorem receiverStep_frame (s : Restart) (i : ℕ) (r : ReceiveResult) :
    ∃ resetWifi relays receivers, s.receiverStep i r = { s with resetWifi, relays, receivers } ∧
      (s.resetWifi = true → resetWifi = true) ∧ relays.handle = s.relays.handle ∧
      receivers.handle = s.receivers.handle := by
  rcases s.receiverStep_cases i r with ⟨heq, -⟩ | ⟨t, -, ⟨-, heq⟩ | ⟨-, heq⟩⟩
  · exact ⟨s.resetWifi, s.relays, s.receivers, heq, id, rfl, rfl⟩
  · exact ⟨s.resetWifi, s.relays, _, heq, id, rfl, rfl⟩
  · rw [heq]
    cases r with
    | failed => exact ⟨true, s.relays, _, rfl, fun _ ↦ rfl, rfl, rfl⟩
    | nothing => exact ⟨s.resetWifi, s.relays, _, rfl, id, rfl, rfl⟩
    | message m =>
        rw [received]
        rcases pushRelay_cases _ t.relayQueue (some m) with ⟨heq, -⟩ | ⟨j, t', -, -, heq⟩
        · exact ⟨s.resetWifi, s.relays, _, heq, id, rfl, rfl⟩
        · exact ⟨s.resetWifi, _, _, heq, id, rfl, rfl⟩

theorem ledger_push (hkeeps : s.outqueue.clearOnFull = false) (m : Option Message) :
    (s.outqueue.push m).queue.reduceOption = s.outqueue.queue.reduceOption ++
      if s.outqueue.size < s.outqueue.maxSize then m.toList else [] := by
  rcases s.outqueue.push_cases m with ⟨hlt, hpush⟩ | ⟨hfull, -, hpush⟩ | ⟨-, hclear, -⟩
  · rw [hpush, if_pos (show s.outqueue.size < _ from hlt), List.reduceOption_append]
    cases m <;> rfl
  · rw [hpush, if_neg (show ¬s.outqueue.size < _ from Nat.not_lt.mpr hfull), List.append_nil]
  · rw [hkeeps] at hclear
    cases hclear

theorem ledger_mainStep (h : s.Inv) (hkeeps : s.outqueue.clearOnFull = false) :
    s.mainStep.ledger = s.ledger := by
  rw [mainStep]
  cases hmain : s.main with
  | top | terminate devs | clear devs | update devs => rfl
  | query | joinReceiver devs =>
      simp only
      split <;> rfl
  | wakeSender devs =>
      simp only [ledger]
      split
      · rw [ledger_push hkeeps none, Option.toList_none, ite_self, List.append_nil]
        rfl
      · rfl
  | joinSender devs =>
      simp only
      split
      case isTrue hrank =>
        have hhand : s.inHand = [] := by
          rw [inHand]
          cases hheld : s.senders.held with
          | none => rfl
          | some t => exact (step_of_rank (held_rank hrank t hheld) true s.outqueue).2
        simp only [ledger, hhand]
        rfl
      case isFalse => rfl
  | wakeRelay devs =>
      simp only
      split
      · rcases s.pushRelay_cases s.relayQueue none with ⟨heq, -⟩ | ⟨j, t, -, -, heq⟩ <;>
          rw [heq] <;> rfl
      · rfl
  | joinRelay devs =>
      simp only
      split <;> rfl
  | send rest devs =>
      cases rest with
      | nil => rfl
      | cons d rest =>
          simp only
          split
          · -- the new thread has nothing in hand
            have hhand : s.inHand = [] := by
              rw [inHand, Pool.held,
                h.senders_handle (by simp [stage, hmain]) (by simp [stage, hmain])]
              rfl
            simp only [ledger, hhand]
            rw [inHand, Pool.held_start]
            rfl
          · rfl
  | relay rest devs =>
      cases rest with
      | nil => rfl
      | cons d rest =>
          simp only
          split <;> rfl
  | receive rest =>
      cases rest with
      | nil => rfl
      | cons d rest =>
          simp only
          split <;> rfl

/-- A worker that goes on takes its next message from the queue, or is done with the one it has. -/
theorem worker_ledger {α : Type} (t : WorkerAt α) (terminate : Bool) (q : SharedQueue (Option α)) :
    t.sends ++ (t.step terminate q).1.sends ++ (t.step terminate q).2.queue.reduceOption =
      t.sends ++ q.queue.reduceOption := by
  cases t with
  | check => cases terminate <;> rfl
  | pop =>
      rw [WorkerAt.step, SharedQueue.tryPop]
      cases hq : q.queue with
      | nil => simp [WorkerAt.sends, hq]
      | cons m rest => cases m <;> simp [WorkerAt.sends]
  | handle m => simp [WorkerAt.step, WorkerAt.sends]
  | exited => rfl

theorem ledger_senderStep (h : s.Inv) (i : ℕ) : (s.senderStep i).ledger = s.ledger := by
  rw [senderStep]
  cases ht : s.senders.threads[i]? with
  | none => rfl
  | some t =>
      by_cases hheld : s.senders.handle = some i
      · have hhand : s.inHand = t.sends := by rw [inHand, Pool.held_of_handle hheld, ht]; rfl
        have hhand' : (s.senders.update i (t.step s.resetWifi s.outqueue).1).held =
            some (t.step s.resetWifi s.outqueue).1 := Pool.held_update_self hheld ht
        have hworker := worker_ledger t s.resetWifi s.outqueue
        simp only [ledger, hhand]
        rw [inHand]
        simp only [hhand', Option.elim_some]
        rw [List.append_assoc, List.append_assoc, ← List.append_assoc t.sends, hworker,
          List.append_assoc]
      · have hrank := h.senders i t ht hheld
        obtain ⟨hstep, hsends⟩ := step_of_rank hrank s.resetWifi s.outqueue
        simp only [ledger, inHand, Pool.held_update_ne hheld, hstep, hsends, List.append_nil]

theorem ledger_step (h : s.Inv) (hkeeps : s.outqueue.clearOnFull = false) (op : Step) :
    (s.step op).ledger = s.ledger ++ s.accepts op := by
  cases op with
  | main => exact (ledger_mainStep h hkeeps).trans (List.append_nil _).symm
  | sender i => exact (ledger_senderStep h i).trans (List.append_nil _).symm
  | relay i =>
      refine Eq.trans ?_ (List.append_nil _).symm
      rw [step, relayStep]
      cases s.relays.threads[i]? <;> rfl
  | receiver i r =>
      obtain ⟨resetWifi, relays, receivers, heq, -⟩ := s.receiverStep_frame i r
      refine Eq.trans ?_ (List.append_nil _).symm
      rw [step, heq]
      rfl
  | monitor devs =>
      refine Eq.trans ?_ (List.append_nil _).symm
      rw [step, monitorStep]
      cases s.monitor <;> rfl
  | usable role devs => exact (List.append_nil _).symm
  | push m =>
      have hpush := ledger_push hkeeps (some m)
      simp only [step, accepts, ledger]
      rw [hpush, ← List.append_assoc]
      rfl

/-- All that the device loop does to the queue is to wake the send thread. -/
theorem mainStep_outqueue (s : Restart) :
    (s.mainStep.outqueue = s.outqueue ∨ s.mainStep.outqueue = s.outqueue.push none) ∧
      s.mainStep.maxQueueSize = s.maxQueueSize := by
  rw [mainStep]
  split
  case h_5 =>
    refine ⟨?_, rfl⟩
    by_cases hheld : s.senders.handle.isSome = true
    · exact .inr (if_pos hheld)
    · exact .inl (if_neg hheld)
  case h_7 =>
    simp only
    split
    · rcases s.pushRelay_cases s.relayQueue none with ⟨heq, -⟩ | ⟨j, t, -, -, heq⟩ <;> rw [heq] <;>
        exact ⟨.inl rfl, rfl⟩
    · exact ⟨.inl rfl, rfl⟩
  all_goals first | exact ⟨.inl rfl, rfl⟩ | (split <;> exact ⟨.inl rfl, rfl⟩)

theorem worker_settings {α : Type} (t : WorkerAt α) (terminate : Bool)
    (q : SharedQueue (Option α)) :
    (t.step terminate q).2.clearOnFull = q.clearOnFull ∧
      (t.step terminate q).2.maxSize = q.maxSize := by
  cases t with
  | pop =>
      rw [WorkerAt.step, SharedQueue.tryPop]
      cases q.queue <;> exact ⟨rfl, rfl⟩
  | check | handle m | exited => exact ⟨rfl, rfl⟩

/-- No step changes the settings of the queue. -/
theorem outqueue_settings (s : Restart) (op : Step) :
    (s.step op).outqueue.clearOnFull = s.outqueue.clearOnFull ∧
      (s.step op).outqueue.maxSize = s.outqueue.maxSize ∧
        (s.step op).maxQueueSize = s.maxQueueSize := by
  cases op with
  | main =>
      obtain ⟨hqueue, hsize⟩ := s.mainStep_outqueue
      obtain ⟨hmax, hclear⟩ := s.outqueue.push_settings none
      rcases hqueue with heq | heq
      · rw [step, heq]
        exact ⟨rfl, rfl, hsize⟩
      · rw [step, heq]
        exact ⟨hclear, hmax, hsize⟩
  | sender i =>
      rw [step, senderStep]
      cases s.senders.threads[i]? with
      | none => exact ⟨rfl, rfl, rfl⟩
      | some t =>
          obtain ⟨hclear, hmax⟩ := worker_settings t s.resetWifi s.outqueue
          exact ⟨hclear, hmax, rfl⟩
  | relay i =>
      rw [step, relayStep]
      cases s.relays.threads[i]? <;> exact ⟨rfl, rfl, rfl⟩
  | receiver i r =>
      obtain ⟨resetWifi, relays, receivers, heq, -⟩ := s.receiverStep_frame i r
      rw [step, heq]
      exact ⟨rfl, rfl, rfl⟩
  | monitor devs =>
      rw [step, monitorStep]
      cases s.monitor <;> exact ⟨rfl, rfl, rfl⟩
  | usable role devs => exact ⟨rfl, rfl, rfl⟩
  | push m =>
      obtain ⟨hmax, hclear⟩ := s.outqueue.push_settings (some m)
      exact ⟨hclear, hmax, rfl⟩

/-- Every message that got into the queue is sent, in hand or still waiting: over all restarts none
of them is lost, sent twice or overtaken. -/
theorem ledger_run (maxQueueSize : ℕ) (steps : List Step) :
    ((run maxQueueSize steps).ledger.Sublist (pushes steps)) ∧
      (Run.AlongFold step (fun s op ↦ ∀ m, op = .push m → s.outqueue.size < s.outqueue.maxSize)
        { maxQueueSize } steps → (run maxQueueSize steps).ledger = pushes steps) := by
  have hrun : ∀ (steps : List Step) (s : Restart), s.Inv → s.outqueue.clearOnFull = false →
      (∃ l, (steps.foldl step s).ledger = s.ledger ++ l ∧ l.Sublist (pushes steps)) ∧
      (Run.AlongFold step (fun s op ↦ ∀ m, op = .push m → s.outqueue.size < s.outqueue.maxSize) s
          steps →
        (steps.foldl step s).ledger = s.ledger ++ pushes steps) := by
    intro steps
    induction steps with
    | nil =>
        exact fun s _ _ ↦ ⟨⟨[], (List.append_nil _).symm, .slnil⟩, fun _ ↦ (List.append_nil _).symm⟩
    | cons op steps ih =>
        intro s hinv hkeeps
        obtain ⟨⟨l, hl, hsub⟩, hall⟩ :=
          ih (s.step op) (hinv.step op) ((s.outqueue_settings op).1.trans hkeeps)
        have hstep := ledger_step hinv hkeeps op
        have hpushes : pushes (op :: steps) = pushes [op] ++ pushes steps :=
          List.filterMap_append (l := [op])
        have haccepts : (s.accepts op).Sublist (pushes [op]) := by
          cases op with
          | push m =>
              rw [accepts]
              split
              · exact List.Sublist.refl _
              · exact List.nil_sublist _
          | main | sender i | relay i | receiver i r | monitor devs | usable role devs =>
              exact List.Sublist.refl _
        refine ⟨⟨s.accepts op ++ l, ?_, ?_⟩, ?_⟩
        · rw [List.foldl_cons, hl, hstep, List.append_assoc]
        · rw [hpushes]
          exact haccepts.append hsub
        · rintro ⟨hroom, hrest⟩
          have hop : s.accepts op = pushes [op] := by
            cases op with
            | push m => exact if_pos (hroom m rfl)
            | main | sender i | relay i | receiver i r | monitor devs | usable role devs => rfl
          rw [List.foldl_cons, hall hrest, hstep, hop, hpushes, List.append_assoc]
  have hinit : ({ maxQueueSize } : Restart).ledger = [] := rfl
  obtain ⟨⟨l, hl, hsub⟩, hall⟩ := hrun steps { maxQueueSize } (inv_run maxQueueSize []) rfl
  rw [hinit, List.nil_append] at hl hall
  exact ⟨by rw [run, hl]; exact hsub, hall⟩

instance (op : Step) (P : Prop) [Decidable P] : Decidable (∀ m, op = .push m → P) :=
  match op with
  | .push m => decidable_of_iff P ⟨fun h _ _ ↦ h, fun h ↦ h m rfl⟩
  | .main | .sender _ | .relay _ | .receiver _ _ | .monitor _ | .usable _ _ => isTrue nofun

/-- A message of one byte. -/
def oneByte (b : UInt8) : Message where
  msg := [b]
  port := 0
  ipPort := 0
  priority := 100
  opts := { linkType := .dataLink, dataRate := 18 }
  enc := 0

/-- A restart while a message is in hand and another one waits. -/
def restartSteps : List Step :=
  .usable .transmit ["wlan0"] :: .monitor ["wlan0"] :: (List.replicate 15 .main).append
    (.push (oneByte 1) :: .sender 0 :: .sender 0 :: .push (oneByte 2) ::
      .monitor ["wlan0", "wlan1"] :: (List.replicate 6 .main).append (.sender 0 :: .sender 0 ::
        (List.replicate 12 .main).append [.sender 1, .sender 1, .sender 1]))

/-- Both are sent, the second one by the second thread. -/
theorem ledger_run_restart : (run 10 restartSteps).senders.threads.length = 2 ∧
    (run 10 restartSteps).ledger = [oneByte 1, oneByte 2] := by
  have hroom := (ledger_run 10 restartSteps).2 (by decide +kernel)
  exact ⟨by decide +kernel, hroom.trans rfl⟩

/-! ## The receive side -/

end Restart

/-- The place of the device loop, as the receive thread sees it. -/
def RestartAt.deviceLoop : RestartAt → MainAt
  | .top => .top
  | .query => .query
  | .terminate devs => .terminate devs
  | .joinReceiver devs => .join devs
  | .wakeSender devs | .joinSender devs | .wakeRelay devs | .joinRelay devs | .clear devs =>
      .clear devs
  | .update devs => .update devs
  | .send _ devs | .relay _ devs => .configure devs
  | .receive rest => .configure rest

namespace Restart

variable {s : Restart}

/-- The device loop without the threads that send and relay. -/
def deviceLoop (s : Restart) : DeviceLoop where
  resetWifi := s.resetWifi
  devices := s.devices
  currentDevices := s.currentDevices
  usable := s.usable .receive
  main := s.main.deviceLoop
  receiver := s.receivers.held.elim .none ReceiveThread.loc
  monitor := s.monitor

/-- `d'` is `d`, or one step further. -/
def StepsTo (d d' : DeviceLoop) : Prop := d' = d ∨ ∃ op, d' = d.step op

theorem deviceLoop_pushRelay (s : Restart) (i : Option ℕ) (m : Option MonitorMessage) :
    (s.pushRelay i m).deviceLoop = s.deviceLoop := by
  rcases s.pushRelay_cases i m with ⟨heq, -⟩ | ⟨j, t, -, -, heq⟩
  · rw [heq]
  · rw [heq]
    rfl

theorem deviceLoop_mainStep (s : Restart) : StepsTo s.deviceLoop s.mainStep.deviceLoop := by
  have hmove : ∀ s' : Restart, s'.deviceLoop = s.deviceLoop.mainStep →
      StepsTo s.deviceLoop s'.deviceLoop :=
    fun s' h ↦ .inr ⟨.main, h⟩
  have hat : s.deviceLoop.main = s.main.deviceLoop := rfl
  rw [mainStep]
  cases hmain : s.main with
  | top | terminate devs | clear devs | update devs =>
      refine hmove _ ?_
      simp only [deviceLoop, DeviceLoop.mainStep, hmain, RestartAt.deviceLoop]
  | query =>
      refine hmove _ ?_
      rw [DeviceLoop.mainStep, hat, hmain]
      by_cases hchange : s.change s.devices
      · have hchange' : s.deviceLoop.change s.deviceLoop.devices := hchange
        simp only [RestartAt.deviceLoop, if_pos hchange, if_pos hchange']
        rfl
      · have hchange' : ¬s.deviceLoop.change s.deviceLoop.devices := hchange
        simp only [RestartAt.deviceLoop, if_neg hchange, if_neg hchange']
        rfl
  | joinReceiver devs =>
      refine hmove _ ?_
      have hiff : s.receiverRank = 0 ↔ s.deviceLoop.receiver = .none ∨
          s.deviceLoop.receiver = .exited := by
        rw [receiverRank, deviceLoop]
        cases s.receivers.held with
        | none => simp
        | some t => cases hloc : t.loc <;> simp [ReceiverAt.rank, hloc]
      rw [DeviceLoop.mainStep, hat, hmain]
      by_cases hrank : s.receiverRank = 0
      · simp only [RestartAt.deviceLoop, if_pos hrank, if_pos (hiff.mp hrank)]
        rfl
      · simp only [RestartAt.deviceLoop, if_neg hrank, if_neg fun h ↦ hrank (hiff.mpr h)]
  | wakeSender devs =>
      refine .inl ?_
      simp only [deviceLoop, hmain, RestartAt.deviceLoop]
  | joinSender devs =>
      refine .inl ?_
      simp only
      split <;> simp only [deviceLoop, hmain, RestartAt.deviceLoop]
  | wakeRelay devs =>
      refine .inl ?_
      simp only
      split
      · rcases s.pushRelay_cases s.relayQueue none with ⟨heq, -⟩ | ⟨j, t, -, -, heq⟩ <;>
          rw [heq] <;>
          simp only [deviceLoop, hmain, RestartAt.deviceLoop]
      · simp only [deviceLoop, hmain, RestartAt.deviceLoop]
  | joinRelay devs =>
      refine .inl ?_
      simp only
      split <;> simp only [deviceLoop, hmain, RestartAt.deviceLoop]
  | send rest devs =>
      refine .inl ?_
      cases rest with
      | nil => simp only [deviceLoop, hmain, RestartAt.deviceLoop]
      | cons d rest =>
          simp only
          split <;> simp only [deviceLoop, hmain, RestartAt.deviceLoop]
  | relay rest devs =>
      refine .inl ?_
      cases rest with
      | nil => simp only [deviceLoop, hmain, RestartAt.deviceLoop]
      | cons d rest =>
          simp only
          split <;> simp only [deviceLoop, hmain, RestartAt.deviceLoop]
  | receive rest =>
      refine hmove _ ?_
      cases rest with
      | nil => simp only [deviceLoop, DeviceLoop.mainStep, hmain, RestartAt.deviceLoop]
      | cons d rest =>
          simp only [deviceLoop, DeviceLoop.mainStep, hmain, RestartAt.deviceLoop]
          split
          · rw [Pool.held_start]
            rfl
          · rfl

theorem deviceLoop_receiverStep (h : s.Inv) (i : ℕ) (r : ReceiveResult) :
    StepsTo s.deviceLoop (s.receiverStep i r).deviceLoop := by
  rcases s.receiverStep_cases i r with ⟨heq, -⟩ | ⟨t, ht, hcases⟩
  · exact .inl (by rw [heq])
  -- a thread that is running is the one that is held
  have hrun : t.loc.rank ≠ 0 := by
    rcases hcases with ⟨hloc, -⟩ | ⟨hloc, -⟩ <;> rw [hloc] <;> decide
  have hheld := h.receivers.handle_eq ht hrun
  have hreceiver : s.deviceLoop.receiver = t.loc := by
    rw [deviceLoop, Pool.held_of_handle hheld, ht]
    rfl
  refine .inr ⟨.receiver (r ≠ .failed), ?_⟩
  rw [DeviceLoop.step, DeviceLoop.receiverStep, hreceiver]
  rcases hcases with ⟨hloc, heq⟩ | ⟨hloc, heq⟩
  · rw [heq, hloc]
    cases hreset : s.resetWifi <;>
      simp [deviceLoop, Pool.held_update_self hheld ht, hreset]
  · rw [heq, hloc]
    cases r with
    | failed =>
        simp [received, deviceLoop, Pool.held_update_self hheld ht]
    | nothing =>
        simp [received, deviceLoop, Pool.held_update_self hheld ht]
    | message m =>
        rw [received, deviceLoop_pushRelay]
        simp [deviceLoop, Pool.held_update_self hheld ht]

theorem deviceLoop_step (h : s.Inv) (op : Step) : StepsTo s.deviceLoop (s.step op).deviceLoop := by
  cases op with
  | main => exact deviceLoop_mainStep s
  | sender i =>
      refine .inl ?_
      rw [step, senderStep]
      cases s.senders.threads[i]? <;> rfl
  | relay i =>
      refine .inl ?_
      rw [step, relayStep]
      cases s.relays.threads[i]? <;> rfl
  | receiver i r => exact deviceLoop_receiverStep h i r
  | monitor devs =>
      refine .inr ⟨.monitor devs, ?_⟩
      rw [step, monitorStep, DeviceLoop.step, DeviceLoop.monitorStep]
      cases hmonitor : s.monitor <;> simp [deviceLoop, hmonitor]
  | usable role devs =>
      cases role with
      | receive => exact .inr ⟨.usable devs, rfl⟩
      | transmit | relay => exact .inl rfl
  | push m => exact .inl rfl

/-- The threads that send and relay make no difference to the receive side: without them every run
of the device loop is a run of `DeviceLoop`. -/
theorem refines_deviceLoop (maxQueueSize : ℕ) (steps : List Step) :
    ∃ steps' : List DeviceLoop.Step,
      (run maxQueueSize steps).deviceLoop = steps'.foldl DeviceLoop.step {} := by
  suffices h : ∀ (steps : List Step) (s : Restart), s.Inv →
      ∃ steps' : List DeviceLoop.Step,
        (steps.foldl step s).deviceLoop = steps'.foldl DeviceLoop.step s.deviceLoop from
    h steps _ (inv_run maxQueueSize [])
  intro steps
  induction steps with
  | nil => exact fun s _ ↦ ⟨[], rfl⟩
  | cons op steps ih =>
      intro s hinv
      obtain ⟨steps', h⟩ := ih (s.step op) (hinv.step op)
      rcases deviceLoop_step hinv op with heq | ⟨op', heq⟩
      · exact ⟨steps', by rw [List.foldl_cons, h, heq]⟩
      · exact ⟨op' :: steps', by rw [List.foldl_cons, h, heq, List.foldl_cons]⟩

end Restart

end WfbBridge
