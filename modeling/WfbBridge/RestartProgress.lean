import Mathlib
import WfbBridge.Restart

/-!
# A restart comes to its end

`main` waits for each of its threads when it restarts them.  It gets through, whatever the threads
were at, as long as every thread takes steps and the queues have room for the message that wakes
them.  With queues of size 0 it can wait for ever.
-/

namespace WfbBridge

namespace Restart

variable {s : Restart}

/-! ## Waking -/

/-- A thread that `main` waits for has something to pop. -/
structure Woken (s : Restart) : Prop where
  maxQueueSize : 1 ≤ s.maxQueueSize
  outqueue : 1 ≤ s.outqueue.maxSize
  relays : ∀ (i : ℕ) (t : RelayThread), s.relays.threads[i]? = some t → 1 ≤ t.queue.maxSize
  sender : s.stage = 5 → s.senders.held = some .pop → s.outqueue.queue ≠ []
  relay : s.stage = 7 → ∀ t ∈ s.relays.held, t.loc = .pop → t.queue.queue ≠ []

theorem push_ne_nil {α : Type} {q : SharedQueue α} (h : 1 ≤ q.maxSize) (m : α) :
    (q.push m).queue ≠ [] := by
  rcases q.push_cases m with ⟨-, hpush⟩ | ⟨hfull, -, hpush⟩ | ⟨-, -, hpush⟩
  · rw [hpush]
    exact List.append_ne_nil_of_right_ne_nil _ (List.cons_ne_nil m [])
  · rw [hpush]
    exact List.ne_nil_of_length_pos (h.trans hfull)
  · rw [hpush]
    simp only [if_pos (show 0 < q.maxSize from h)]
    exact List.cons_ne_nil m []

/-- Once it has been told, a worker only comes to `pop` by waiting there. -/
theorem worker_pop {α : Type} {t : WorkerAt α} {q : SharedQueue (Option α)}
    (h : (t.step true q).1 = .pop) :
    t = .pop ∧ q.queue = [] := by
  cases t with
  | check | handle m | exited => cases h
  | pop =>
      rw [WorkerAt.step, SharedQueue.tryPop] at h
      cases hq : q.queue with
      | nil => exact ⟨rfl, rfl⟩
      | cons m rest =>
          rw [hq] at h
          cases h

theorem maxSize_pushRelay
    (h : ∀ (i : ℕ) (t : RelayThread), s.relays.threads[i]? = some t → 1 ≤ t.queue.maxSize) {j : ℕ}
    {t : RelayThread} (ht : s.relays.threads[j]? = some t) {t' : RelayThread}
    (hmax : t'.queue.maxSize = t.queue.maxSize) (i : ℕ) (t₁ : RelayThread)
    (ht₁ : (s.relays.update j t').threads[i]? = some t₁) : 1 ≤ t₁.queue.maxSize := by
  by_cases hij : j = i
  · subst hij
    rw [Pool.update, List.getElem?_set_self (List.getElem?_eq_some_iff.mp ht).1] at ht₁
    rw [← Option.some.inj ht₁, hmax]
    exact h j t ht
  · rw [Pool.update, List.getElem?_set_ne hij] at ht₁
    exact h i t₁ ht₁

/-- A message for a relay queue wakes its thread. -/
theorem Woken.pushRelay (h : s.Woken) (i : Option ℕ) (m : Option MonitorMessage) :
    (s.pushRelay i m).Woken := by
  rcases s.pushRelay_cases i m with ⟨heq, -⟩ | ⟨j, t, -, ht, heq⟩
  · rwa [heq]
  · rw [heq]
    have hmax := (t.queue.push_settings m).1
    refine ⟨h.maxQueueSize, h.outqueue, maxSize_pushRelay h.relays ht hmax, h.sender,
      fun hstage t' ht' hpop ↦ ?_⟩
    by_cases hheld : s.relays.handle = some j
    · rw [Pool.held_update_self hheld ht] at ht'
      obtain rfl := Option.some.inj ht'
      exact push_ne_nil (h.relays j t ht) m
    · rw [Pool.held_update_ne hheld] at ht'
      exact h.relay hstage t' ht' hpop

theorem Woken.mainStep (h : s.Woken) (hinv : s.Inv) : s.mainStep.Woken := by
  obtain ⟨hsize, hout, hrelays, hsender, hrelay⟩ := h
  rw [Restart.mainStep]
  cases hmain : s.main with
  | top => exact ⟨hsize, hout, hrelays, by simp [stage], by simp [stage]⟩
  | query =>
      simp only
      split <;> exact ⟨hsize, hout, hrelays, by simp [stage], by simp [stage]⟩
  | terminate devs => exact ⟨hsize, hout, hrelays, by simp [stage], by simp [stage]⟩
  | joinReceiver devs =>
      simp only
      split
      · exact ⟨hsize, hout, hrelays, by simp [stage], by simp [stage]⟩
      · exact ⟨hsize, hout, hrelays, hsender, hrelay⟩
  | wakeSender devs =>
      cases hhandle : s.senders.handle with
      | none =>
          refine ⟨hsize, hout, hrelays, fun _ hheld ↦ ?_, by simp [stage]⟩
          simp only [Pool.held, hhandle, Option.bind_none] at hheld
          cases hheld
      | some i =>
          refine ⟨hsize, ?_, hrelays, fun _ _ ↦ push_ne_nil hout none, by simp [stage]⟩
          exact hout.trans_eq (s.outqueue.push_settings none).1.symm
  | joinSender devs =>
      simp only
      split
      · exact ⟨hsize, hout, hrelays, by simp [stage], by simp [stage]⟩
      · exact ⟨hsize, hout, hrelays, hsender, hrelay⟩
  | wakeRelay devs =>
      simp only
      split
      case isTrue hsome =>
        obtain ⟨i, hi⟩ := Option.isSome_iff_exists.mp hsome
        rcases s.pushRelay_cases s.relayQueue none with ⟨heq, hnone⟩ | ⟨j, t, hj, ht, heq⟩
        · rw [heq]
          refine ⟨hsize, hout, hrelays, by simp [stage], fun _ t ht ↦ ?_⟩
          rw [Pool.held_of_handle hi, hnone i (hinv.relayQueue i hi)] at ht
          cases ht
        · rw [heq]
          obtain rfl : i = j := Option.some.inj ((hinv.relayQueue i hi).symm.trans hj)
          refine ⟨hsize, hout, maxSize_pushRelay hrelays ht (t.queue.push_settings none).1,
            by simp [stage], fun _ t' ht' _ ↦ ?_⟩
          rw [Pool.held_update_self hi ht] at ht'
          obtain rfl := Option.some.inj ht'
          exact push_ne_nil (hrelays i t ht) none
      case isFalse hnone =>
        refine ⟨hsize, hout, hrelays, by simp [stage], fun _ t ht ↦ ?_⟩
        simp only [Pool.held, Option.not_isSome_iff_eq_none.mp hnone, Option.bind_none] at ht
        cases ht
  | joinRelay devs =>
      simp only
      split
      · exact ⟨hsize, hout, hrelays, by simp [stage], by simp [stage]⟩
      · exact ⟨hsize, hout, hrelays, hsender, hrelay⟩
  | clear devs => exact ⟨hsize, hout, hrelays, by simp [stage], by simp [stage]⟩
  | update devs => exact ⟨hsize, hout, hrelays, by simp [stage], by simp [stage]⟩
  | send rest devs =>
      cases rest with
      | nil => exact ⟨hsize, hout, hrelays, by simp [stage], by simp [stage]⟩
      | cons d rest =>
          simp only
          split <;> exact ⟨hsize, hout, hrelays, by simp [stage], by simp [stage]⟩
  | relay rest devs =>
      cases rest with
      | nil => exact ⟨hsize, hout, hrelays, by simp [stage], by simp [stage]⟩
      | cons d rest =>
          simp only
          split
          · refine ⟨hsize, hout, fun i t ht ↦ ?_, by simp [stage], by simp [stage]⟩
            change (s.relays.threads ++ [_])[i]? = some t at ht
            rcases List.mem_append.mp (List.mem_of_getElem? ht) with hmem | hmem
            · obtain ⟨j, hj⟩ := List.mem_iff_getElem?.mp hmem
              exact hrelays j t hj
            · obtain rfl := List.mem_singleton.mp hmem
              exact hsize
          · exact ⟨hsize, hout, hrelays, by simp [stage], by simp [stage]⟩
  | receive rest =>
      cases rest with
      | nil => exact ⟨hsize, hout, hrelays, by simp [stage], by simp [stage]⟩
      | cons d rest =>
          simp only
          split <;> exact ⟨hsize, hout, hrelays, by simp [stage], by simp [stage]⟩

theorem Woken.senderStep (h : s.Woken) (hinv : s.Inv) (i : ℕ) : (s.senderStep i).Woken := by
  rw [Restart.senderStep]
  cases ht : s.senders.threads[i]? with
  | none => exact h
  | some t =>
      refine ⟨h.maxQueueSize, ?_, h.relays, fun hstage hpop ↦ ?_, h.relay⟩
      · exact h.outqueue.trans_eq (worker_settings t s.resetWifi s.outqueue).2.symm
      · change s.stage = 5 at hstage
        rw [hinv.resetWifi (by omega) (by omega)] at hpop ⊢
        by_cases hheld : s.senders.handle = some i
        · -- it was waiting, and there was something to pop
          rw [Pool.held_update_self hheld ht] at hpop
          obtain ⟨rfl, hempty⟩ := worker_pop (Option.some.inj hpop)
          exact absurd hempty (h.sender hstage (by rw [Pool.held_of_handle hheld, ht]))
        · rw [Pool.held_update_ne hheld] at hpop
          change (t.step true s.outqueue).2.queue ≠ []
          rw [(step_of_rank (hinv.senders i t ht hheld) true s.outqueue).1]
          exact h.sender hstage hpop

theorem Woken.relayStep (h : s.Woken) (hinv : s.Inv) (i : ℕ) : (s.relayStep i).Woken := by
  rw [Restart.relayStep]
  cases ht : s.relays.threads[i]? with
  | none => exact h
  | some t =>
      have hmax := (worker_settings t.loc s.resetWifi t.queue).2
      refine ⟨h.maxQueueSize, h.outqueue, maxSize_pushRelay h.relays ht hmax, h.sender,
        fun hstage t' ht' hpop ↦ ?_⟩
      change s.stage = 7 at hstage
      rw [hinv.resetWifi (by omega) (by omega)] at ht'
      by_cases hheld : s.relays.handle = some i
      · rw [Pool.held_update_self hheld ht] at ht'
        obtain rfl := Option.some.inj ht'
        obtain ⟨hloc, hempty⟩ := worker_pop hpop
        exact absurd hempty (h.relay hstage t (by rw [Pool.held_of_handle hheld, ht]; rfl) hloc)
      · rw [Pool.held_update_ne hheld] at ht'
        exact h.relay hstage t' ht' hpop

theorem Woken.step (h : s.Woken) (hinv : s.Inv) (op : Step) : (s.step op).Woken := by
  cases op with
  | main => exact h.mainStep hinv
  | sender i => exact h.senderStep hinv i
  | relay i => exact h.relayStep hinv i
  | receiver i r =>
      have hmoved : ∀ receivers resetWifi, { s with receivers, resetWifi }.Woken := fun _ _ ↦
        ⟨h.maxQueueSize, h.outqueue, h.relays, h.sender, h.relay⟩
      rw [Restart.step]
      rcases s.receiverStep_cases i r with ⟨heq, -⟩ | ⟨t, -, ⟨-, heq⟩ | ⟨-, heq⟩⟩
      · rwa [heq]
      · rw [heq]
        exact hmoved _ _
      · rw [heq]
        cases r with
        | failed => exact hmoved _ true
        | nothing => exact hmoved _ s.resetWifi
        | message m => exact (hmoved _ s.resetWifi).pushRelay t.relayQueue (some m)
  | monitor devs =>
      rw [Restart.step, Restart.monitorStep]
      cases s.monitor <;> exact ⟨h.maxQueueSize, h.outqueue, h.relays, h.sender, h.relay⟩
  | usable role devs => exact ⟨h.maxQueueSize, h.outqueue, h.relays, h.sender, h.relay⟩
  | push m =>
      refine ⟨h.maxQueueSize, ?_, h.relays, fun _ _ ↦ push_ne_nil h.outqueue (some m), h.relay⟩
      exact h.outqueue.trans_eq (s.outqueue.push_settings (some m)).1.symm

theorem woken_run {maxQueueSize : ℕ} (hsize : 1 ≤ maxQueueSize) (steps : List Step) :
    (run maxQueueSize steps).Woken := by
  have hboth : (run maxQueueSize steps).Inv ∧ (run maxQueueSize steps).Woken := by
    rw [run]
    have hinit : ({ maxQueueSize } : Restart).Woken :=
      ⟨hsize, hsize, by simp, by simp [stage], by simp [stage]⟩
    exact List.foldlRecOn (motive := fun s ↦ s.Inv ∧ s.Woken) steps Restart.step
      ⟨inv_run maxQueueSize [], hinit⟩ fun s hs op _ ↦ ⟨hs.1.step op, hs.2.step hs.1 op⟩
  exact hboth.2

/-! ## Getting through -/

end Restart

/-- The steps that `main` itself has left. -/
def RestartAt.left : RestartAt → ℕ
  | .top | .query => 0
  | .terminate devs => 3 * devs.length + 12
  | .joinReceiver devs => 3 * devs.length + 11
  | .wakeSender devs => 3 * devs.length + 10
  | .joinSender devs => 3 * devs.length + 9
  | .wakeRelay devs => 3 * devs.length + 8
  | .joinRelay devs => 3 * devs.length + 7
  | .clear devs => 3 * devs.length + 6
  | .update devs => 3 * devs.length + 5
  | .send rest devs => rest.length + 2 * devs.length + 4
  | .relay rest devs => rest.length + devs.length + 3
  | .receive rest => rest.length + 1

namespace Restart

variable {s : Restart}

/-- The steps that the thread that `main` waits for has left. -/
def waits (s : Restart) : ℕ :=
  match s.main with
  | .joinReceiver _ => s.receiverRank
  | .joinSender _ => s.senderRank
  | .joinRelay _ => s.relayRank
  | _ => 0

/-- What is left until the device loop is at its top again. -/
def rank (s : Restart) : ℕ := 4 * s.main.left + s.waits

/-- The step that brings `main` on: its own, or that of the thread it waits for. -/
def Helps (s : Restart) (op : Step) : Prop :=
  if s.waits = 0 then op = .main
  else
    match s.main with
    | .joinReceiver _ => ∃ i r, s.receivers.handle = some i ∧ op = .receiver i r
    | .joinSender _ => ∃ i, s.senders.handle = some i ∧ op = .sender i
    | .joinRelay _ => ∃ i, s.relays.handle = some i ∧ op = .relay i
    | _ => False

theorem worker_rank_le {α : Type} (t : WorkerAt α) : t.rank ≤ 3 := by
  cases t <;> simp [WorkerAt.rank]

theorem senderRank_le (s : Restart) : s.senderRank ≤ 3 := by
  rw [senderRank]
  cases s.senders.held with
  | none => exact Nat.zero_le _
  | some t => exact worker_rank_le t

theorem relayRank_le (s : Restart) : s.relayRank ≤ 3 := by
  rw [relayRank]
  cases s.relays.held with
  | none => exact Nat.zero_le _
  | some t => exact worker_rank_le t.loc

theorem receiverRank_le (s : Restart) : s.receiverRank ≤ 3 := by
  rw [receiverRank]
  cases s.receivers.held with
  | none => exact Nat.zero_le _
  | some t => cases h : t.loc <;> simp [ReceiverAt.rank, h]

/-- `s'` is nearer to the top of the loop than `s`, or there. -/
def Nearer (s s' : Restart) : Prop := s'.main = .top ∨ 2 ≤ s'.stage ∧ s'.rank < s.rank

/-- A step of `main`, unless it waits. -/
theorem nearer_mainStep (hstage : 2 ≤ s.stage) (hwaits : s.waits = 0) : s.Nearer s.mainStep := by
  have hs := senderRank_le
  have hr := relayRank_le
  have hv := receiverRank_le
  rw [mainStep]
  cases hmain : s.main with
  | top => simp [stage, hmain] at hstage
  | query => simp [stage, hmain] at hstage
  | terminate devs =>
      refine .inr ⟨by simp [stage], ?_⟩
      refine lt_of_le_of_lt
        (show _ ≤ 4 * (3 * devs.length + 11) + 3 from Nat.add_le_add_left (hv _) _) ?_
      simp only [rank, waits, hmain, RestartAt.left]
      omega
  | joinReceiver devs =>
      simp only [waits, hmain] at hwaits
      simp only [if_pos hwaits]
      refine .inr ⟨by simp [stage], ?_⟩
      simp only [rank, waits, hmain, RestartAt.left]
      omega
  | wakeSender devs =>
      refine .inr ⟨by simp [stage], ?_⟩
      refine lt_of_le_of_lt
        (show _ ≤ 4 * (3 * devs.length + 9) + 3 from Nat.add_le_add_left (hs _) _) ?_
      simp only [rank, waits, hmain, RestartAt.left]
      omega
  | joinSender devs =>
      simp only [waits, hmain] at hwaits
      simp only [if_pos hwaits]
      refine .inr ⟨by simp [stage], ?_⟩
      simp only [rank, waits, hmain, RestartAt.left]
      omega
  | wakeRelay devs =>
      refine .inr ⟨by simp [stage], ?_⟩
      refine lt_of_le_of_lt
        (show _ ≤ 4 * (3 * devs.length + 7) + 3 from Nat.add_le_add_left (hr _) _) ?_
      simp only [rank, waits, hmain, RestartAt.left]
      omega
  | joinRelay devs =>
      simp only [waits, hmain] at hwaits
      simp only [if_pos hwaits]
      refine .inr ⟨by simp [stage], ?_⟩
      simp only [rank, waits, hmain, RestartAt.left]
      omega
  | clear devs | update devs =>
      refine .inr ⟨by simp [stage], ?_⟩
      simp only [rank, waits, hmain, RestartAt.left]
      omega
  | send rest devs =>
      cases rest with
      | nil =>
          refine .inr ⟨by simp [stage], ?_⟩
          simp only [rank, waits, hmain, RestartAt.left, List.length_nil]
          omega
      | cons d rest =>
          simp only
          split <;> refine .inr ⟨by simp [stage], ?_⟩ <;>
            simp only [rank, waits, hmain, RestartAt.left, List.length_cons] <;> omega
  | relay rest devs =>
      cases rest with
      | nil =>
          refine .inr ⟨by simp [stage], ?_⟩
          simp only [rank, waits, hmain, RestartAt.left, List.length_nil]
          omega
      | cons d rest =>
          simp only
          split <;> refine .inr ⟨by simp [stage], ?_⟩ <;>
            simp only [rank, waits, hmain, RestartAt.left, List.length_cons] <;> omega
  | receive rest =>
      cases rest with
      | nil => exact .inl rfl
      | cons d rest =>
          simp only
          split
          · exact .inl rfl
          · refine .inr ⟨by simp [stage], ?_⟩
            simp only [rank, waits, hmain, RestartAt.left, List.length_cons]
            omega

/-- While it waits, `main` stays where it is. -/
theorem mainStep_of_waits (hwaits : s.waits ≠ 0) : s.mainStep = s := by
  rw [mainStep]
  rw [waits] at hwaits
  split at hwaits
  case h_1 hmain | h_2 hmain | h_3 hmain =>
    simp only [hmain]
    exact if_neg hwaits
  case h_4 => exact absurd rfl hwaits

/-- A worker that has been told does not move away from its end. -/
theorem worker_rank_step_le {α : Type} (t : WorkerAt α) (q : SharedQueue (Option α)) :
    (t.step true q).1.rank ≤ t.rank := by
  cases t with
  | pop =>
      rw [WorkerAt.step, SharedQueue.tryPop]
      cases q.queue <;> simp [WorkerAt.rank]
  | check | handle m | exited => simp [WorkerAt.step, WorkerAt.rank]

/-- It comes nearer to it, unless it has nothing to pop. -/
theorem worker_rank_step_lt {α : Type} {t : WorkerAt α} {q : SharedQueue (Option α)}
    (hrank : t.rank ≠ 0) (hpop : t = .pop → q.queue ≠ []) : (t.step true q).1.rank < t.rank := by
  cases t with
  | pop =>
      obtain ⟨m, rest, hq⟩ := List.exists_cons_of_ne_nil (hpop rfl)
      rw [WorkerAt.step, SharedQueue.tryPop, hq]
      simp [WorkerAt.rank]
  | check | handle m => simp [WorkerAt.step, WorkerAt.rank]
  | exited => exact absurd rfl hrank

theorem senderRank_of_handle {i : ℕ} {t : WorkerAt Message} (hheld : s.senders.handle = some i)
    (ht : s.senders.threads[i]? = some t) : s.senderRank = t.rank := by
  rw [senderRank, Pool.held_of_handle hheld, ht]
  rfl

theorem relayRank_of_handle {i : ℕ} {t : RelayThread} (hheld : s.relays.handle = some i)
    (ht : s.relays.threads[i]? = some t) : s.relayRank = t.loc.rank := by
  rw [relayRank, Pool.held_of_handle hheld, ht]
  rfl

theorem receiverRank_of_handle {i : ℕ} {t : ReceiveThread} (hheld : s.receivers.handle = some i)
    (ht : s.receivers.threads[i]? = some t) : s.receiverRank = t.loc.rank := by
  rw [receiverRank, Pool.held_of_handle hheld, ht]
  rfl

theorem senderRank_senderStep_le (hreset : s.resetWifi = true) (i : ℕ) :
    (s.senderStep i).senderRank ≤ s.senderRank := by
  rw [senderStep]
  cases ht : s.senders.threads[i]? with
  | none => exact le_rfl
  | some t =>
      by_cases hheld : s.senders.handle = some i
      · rw [senderRank_of_handle hheld ht, senderRank, hreset]
        simp only [Pool.held_update_self hheld ht, Option.elim_some]
        exact worker_rank_step_le t s.outqueue
      · rw [senderRank, senderRank]
        simp only [Pool.held_update_ne hheld, le_refl]

theorem relayRank_relayStep_le (hreset : s.resetWifi = true) (i : ℕ) :
    (s.relayStep i).relayRank ≤ s.relayRank := by
  rw [relayStep]
  cases ht : s.relays.threads[i]? with
  | none => exact le_rfl
  | some t =>
      by_cases hheld : s.relays.handle = some i
      · rw [relayRank_of_handle hheld ht, relayRank, hreset]
        simp only [Pool.held_update_self hheld ht, Option.elim_some]
        exact worker_rank_step_le t.loc t.queue
      · rw [relayRank, relayRank]
        simp only [Pool.held_update_ne hheld, le_refl]

theorem relayRank_pushRelay (s : Restart) (i : Option ℕ) (m : Option MonitorMessage) :
    (s.pushRelay i m).relayRank = s.relayRank := by
  rcases s.pushRelay_cases i m with ⟨heq, -⟩ | ⟨j, t, -, ht, heq⟩
  · rw [heq]
  · rw [heq]
    by_cases hheld : s.relays.handle = some j
    · rw [relayRank_of_handle hheld ht, relayRank]
      simp only [Pool.held_update_self hheld ht, Option.elim_some]
    · rw [relayRank, relayRank]
      simp only [Pool.held_update_ne hheld]

theorem relayRank_receiverStep (s : Restart) (i : ℕ) (r : ReceiveResult) :
    (s.receiverStep i r).relayRank = s.relayRank := by
  rcases s.receiverStep_cases i r with ⟨heq, -⟩ | ⟨t, -, ⟨-, heq⟩ | ⟨-, heq⟩⟩
  · rw [heq]
  · rw [heq]
    rfl
  · rw [heq]
    cases r with
    | failed | nothing => rfl
    | message m => exact relayRank_pushRelay _ t.relayQueue (some m)

theorem received_receivers (s : Restart) (i : Option ℕ) (r : ReceiveResult) :
    (s.received i r).receivers = s.receivers := by
  cases r with
  | failed | nothing => rfl
  | message m =>
      rw [received]
      rcases s.pushRelay_cases i (some m) with ⟨heq, -⟩ | ⟨j, t, -, -, heq⟩ <;> rw [heq]

/-- A receive thread that has been told comes nearer to its end. -/
theorem receiverRank_receiverStep (hreset : s.resetWifi = true) (i : ℕ) (r : ReceiveResult) :
    (s.receiverStep i r).receiverRank ≤ s.receiverRank ∧
      (s.receivers.handle = some i → s.receiverRank ≠ 0 →
        (s.receiverStep i r).receiverRank < s.receiverRank) := by
  have hmoved : ∀ (t : ReceiveThread) (loc : ReceiverAt), s.receivers.threads[i]? = some t →
      loc.rank < t.loc.rank →
      (s.receivers.update i { t with loc }).held.elim 0 (fun t ↦ t.loc.rank) ≤ s.receiverRank ∧
        (s.receivers.handle = some i →
          (s.receivers.update i { t with loc }).held.elim 0 (fun t ↦ t.loc.rank) <
            s.receiverRank) := by
    intro t loc ht hlt
    by_cases hheld : s.receivers.handle = some i
    · rw [receiverRank_of_handle hheld ht, Pool.held_update_self hheld ht]
      exact ⟨hlt.le, fun _ ↦ hlt⟩
    · rw [receiverRank, Pool.held_update_ne hheld]
      exact ⟨le_rfl, fun heq ↦ absurd heq hheld⟩
  rcases s.receiverStep_cases i r with ⟨heq, hend⟩ | ⟨t, ht, ⟨hloc, heq⟩ | ⟨hloc, heq⟩⟩
  · rw [heq]
    refine ⟨le_rfl, fun hheld hrank ↦ absurd ?_ hrank⟩
    rw [receiverRank, Pool.held_of_handle hheld]
    cases ht : s.receivers.threads[i]? with
    | none => rfl
    | some t => exact hend t ht
  · rw [heq, hreset]
    obtain ⟨hle, hlt⟩ := hmoved t .exited ht (by rw [hloc]; decide)
    exact ⟨hle, fun hheld _ ↦ hlt hheld⟩
  · rw [heq, receiverRank, received_receivers]
    obtain ⟨hle, hlt⟩ := hmoved t .check ht (by rw [hloc]; decide)
    exact ⟨hle, fun hheld _ ↦ hlt hheld⟩

/-- `main` is where it was, and so is the thread it waits for. -/
structure Unmoved (s s' : Restart) : Prop where
  main : s'.main = s.main
  waits : s'.waits = s.waits
  senders : s'.senders.handle = s.senders.handle
  relays : s'.relays.handle = s.relays.handle
  receivers : s'.receivers.handle = s.receivers.handle

theorem Unmoved.helps {s' : Restart} (h : s.Unmoved s') (op : Step) : s'.Helps op ↔ s.Helps op := by
  rw [Helps, Helps, h.waits, h.main, h.senders, h.relays, h.receivers]

theorem Unmoved.stage {s' : Restart} (h : s.Unmoved s') : s'.stage = s.stage := by
  rw [Restart.stage, Restart.stage, h.main]

/-- A step of another thread brings `main` nearer to the top, or leaves it where it is. -/
theorem nearer_or_unmoved {s' : Restart} (hstage : 2 ≤ s.stage) (hmain : s'.main = s.main)
    (hsenders : s'.senders.handle = s.senders.handle) (hrelays : s'.relays.handle = s.relays.handle)
    (hreceivers : s'.receivers.handle = s.receivers.handle) (hwaits : s'.waits ≤ s.waits) :
    s.Nearer s' ∨ s.Unmoved s' := by
  rcases hwaits.lt_or_eq with hlt | heq
  · refine .inl (.inr ⟨?_, ?_⟩)
    · rwa [stage, hmain]
    · rw [rank, rank, hmain]
      omega
  · exact .inr ⟨hmain, heq, hsenders, hrelays, hreceivers⟩

theorem step_nearer_or_unmoved (hinv : s.Inv) (hstage : 2 ≤ s.stage) (op : Step) :
    s.Nearer (s.step op) ∨ s.Unmoved (s.step op) := by
  -- the threads that `main` waits for have been told
  have hreset : ∀ devs, s.main = .joinReceiver devs ∨ s.main = .joinSender devs ∨
      s.main = .joinRelay devs → s.resetWifi = true := by
    rintro devs (h | h | h) <;> exact hinv.resetWifi (by simp [stage, h]) (by simp [stage, h])
  cases op with
  | main =>
      by_cases hwaits : s.waits = 0
      · exact .inl (nearer_mainStep hstage hwaits)
      · rw [step, mainStep_of_waits hwaits]
        exact .inr ⟨rfl, rfl, rfl, rfl, rfl⟩
  | sender i =>
      have hframe : (s.senderStep i).main = s.main ∧
          (s.senderStep i).senders.handle = s.senders.handle ∧
          (s.senderStep i).relays = s.relays ∧ (s.senderStep i).receivers = s.receivers := by
        rw [senderStep]
        cases s.senders.threads[i]? <;> exact ⟨rfl, rfl, rfl, rfl⟩
      obtain ⟨hmain, hsenders, hrelays, hreceivers⟩ := hframe
      refine nearer_or_unmoved hstage hmain hsenders (by rw [step, hrelays])
        (by rw [step, hreceivers]) ?_
      rw [step, waits, waits, hmain]
      cases hmain : s.main with
      | joinReceiver devs => simp only [receiverRank, hreceivers, le_refl]
      | joinSender devs => exact senderRank_senderStep_le (hreset devs (.inr (.inl hmain))) i
      | joinRelay devs => simp only [relayRank, hrelays, le_refl]
      | top | query | terminate devs | wakeSender devs | wakeRelay devs | clear devs | update devs
      | send rest devs | relay rest devs | receive rest => exact le_rfl
  | relay i =>
      have hframe : (s.relayStep i).main = s.main ∧
          (s.relayStep i).relays.handle = s.relays.handle ∧
          (s.relayStep i).senders = s.senders ∧ (s.relayStep i).receivers = s.receivers := by
        rw [relayStep]
        cases s.relays.threads[i]? <;> exact ⟨rfl, rfl, rfl, rfl⟩
      obtain ⟨hmain, hrelays, hsenders, hreceivers⟩ := hframe
      refine nearer_or_unmoved hstage hmain (by rw [step, hsenders]) hrelays
        (by rw [step, hreceivers]) ?_
      rw [step, waits, waits, hmain]
      cases hmain : s.main with
      | joinReceiver devs => simp only [receiverRank, hreceivers, le_refl]
      | joinSender devs => simp only [senderRank, hsenders, le_refl]
      | joinRelay devs => exact relayRank_relayStep_le (hreset devs (.inr (.inr hmain))) i
      | top | query | terminate devs | wakeSender devs | wakeRelay devs | clear devs | update devs
      | send rest devs | relay rest devs | receive rest => exact le_rfl
  | receiver i r =>
      have hframe : (s.receiverStep i r).main = s.main ∧ (s.receiverStep i r).senders = s.senders ∧
          (s.receiverStep i r).relays.handle = s.relays.handle ∧
          (s.receiverStep i r).receivers.handle = s.receivers.handle := by
        obtain ⟨resetWifi, relays, receivers, heq, -, hrelays, hreceivers⟩ :=
          s.receiverStep_frame i r
        rw [heq]
        exact ⟨rfl, rfl, hrelays, hreceivers⟩
      obtain ⟨hmain, hsenders, hrelays, hreceivers⟩ := hframe
      refine nearer_or_unmoved hstage hmain (by rw [step, hsenders]) hrelays hreceivers ?_
      rw [step, waits, waits, hmain]
      cases hmain : s.main with
      | joinReceiver devs => exact (receiverRank_receiverStep (hreset devs (.inl hmain)) i r).1
      | joinSender devs => simp only [senderRank, hsenders, le_refl]
      | joinRelay devs => exact (relayRank_receiverStep s i r).le
      | top | query | terminate devs | wakeSender devs | wakeRelay devs | clear devs | update devs
      | send rest devs | relay rest devs | receive rest => exact le_rfl
  | monitor devs =>
      rw [step, monitorStep]
      cases s.monitor <;> exact .inr ⟨rfl, rfl, rfl, rfl, rfl⟩
  | usable role devs => exact .inr ⟨rfl, rfl, rfl, rfl, rfl⟩
  | push m => exact .inr ⟨rfl, rfl, rfl, rfl, rfl⟩

/-- The thread that `main` waits for takes a step. -/
theorem nearer_of_waits {s' : Restart} (hstage : 2 ≤ s.stage) (hmain : s'.main = s.main)
    (hwaits : s'.waits < s.waits) : s.Nearer s' := by
  refine .inr ⟨by rwa [stage, hmain], ?_⟩
  rw [rank, rank, hmain]
  omega

/-- The step that helps brings it nearer. -/
theorem Helps.nearer {op : Step} (h : s.Helps op) (hinv : s.Inv) (hwoken : s.Woken)
    (hstage : 2 ≤ s.stage) :
    s.Nearer (s.step op) := by
  by_cases hwaits : s.waits = 0
  · rw [Helps, if_pos hwaits] at h
    rw [h]
    exact nearer_mainStep hstage hwaits
  rw [Helps, if_neg hwaits] at h
  rw [waits] at hwaits
  cases hmain : s.main with
  | joinReceiver devs =>
      have hreset := hinv.resetWifi (by simp [stage, hmain]) (by simp [stage, hmain])
      simp only [hmain] at h hwaits
      obtain ⟨i, r, hhandle, rfl⟩ := h
      obtain ⟨resetWifi, relays, receivers, heq, -⟩ := s.receiverStep_frame i r
      have hsame : (s.receiverStep i r).main = s.main := by rw [heq]
      refine nearer_of_waits hstage hsame ?_
      rw [step, waits, waits, hsame, hmain]
      exact (receiverRank_receiverStep hreset i r).2 hhandle hwaits
  | joinSender devs =>
      have hreset := hinv.resetWifi (by simp [stage, hmain]) (by simp [stage, hmain])
      simp only [hmain] at h hwaits
      obtain ⟨i, hhandle, rfl⟩ := h
      rw [step, senderStep]
      cases ht : s.senders.threads[i]? with
      | none =>
          rw [senderRank, Pool.held_of_handle hhandle, ht] at hwaits
          exact absurd rfl hwaits
      | some t =>
          have hrank := senderRank_of_handle hhandle ht
          refine nearer_of_waits hstage rfl ?_
          simp only [waits, hmain]
          rw [hrank, senderRank, hreset]
          simp only [Pool.held_update_self hhandle ht, Option.elim_some]
          refine worker_rank_step_lt (hrank ▸ hwaits) fun hpop ↦
            hwoken.sender (by simp [stage, hmain]) ?_
          rw [Pool.held_of_handle hhandle, ht, hpop]
  | joinRelay devs =>
      have hreset := hinv.resetWifi (by simp [stage, hmain]) (by simp [stage, hmain])
      simp only [hmain] at h hwaits
      obtain ⟨i, hhandle, rfl⟩ := h
      rw [step, relayStep]
      cases ht : s.relays.threads[i]? with
      | none =>
          rw [relayRank, Pool.held_of_handle hhandle, ht] at hwaits
          exact absurd rfl hwaits
      | some t =>
          have hrank := relayRank_of_handle hhandle ht
          refine nearer_of_waits hstage rfl ?_
          simp only [waits, hmain]
          rw [hrank, relayRank, hreset]
          simp only [Pool.held_update_self hhandle ht, Option.elim_some]
          refine worker_rank_step_lt (hrank ▸ hwaits) fun hpop ↦
            hwoken.relay (by simp [stage, hmain]) t ?_ hpop
          rw [Pool.held_of_handle hhandle, ht]
          rfl
  | top | query | terminate devs | wakeSender devs | wakeRelay devs | clear devs | update devs
  | send rest devs | relay rest devs | receive rest =>
      simp only [hmain] at h

/-! ## Fair runs -/

/-- Every thread takes a step. -/
structure Round (s : Restart) (ops : List Step) : Prop where
  main : .main ∈ ops
  senders : ∀ i < s.senders.threads.length, .sender i ∈ ops
  relays : ∀ i < s.relays.threads.length, .relay i ∈ ops
  receivers : ∀ i < s.receivers.threads.length, ∃ r, .receiver i r ∈ ops

/-- A run in rounds. -/
def Rounds : Restart → List (List Step) → Prop
  | _, [] => True
  | s, ops :: rest => s.Round ops ∧ Rounds (ops.foldl step s) rest

/-- In a round there is a step that helps. -/
theorem Round.helps {ops : List Step} (h : s.Round ops) : ∃ op ∈ ops, s.Helps op := by
  by_cases hwaits : s.waits = 0
  · exact ⟨.main, h.main, by rw [Helps, if_pos hwaits]⟩
  have hheld : ∀ {τ : Type} {p : Pool τ} {f : τ → ℕ}, p.held.elim 0 f ≠ 0 →
      ∃ i < p.threads.length, p.handle = some i := by
    intro τ p f hne
    cases hhandle : p.handle with
    | none =>
        rw [Pool.held, hhandle] at hne
        exact absurd rfl hne
    | some i =>
        rw [Pool.held_of_handle hhandle] at hne
        refine ⟨i, ?_, rfl⟩
        by_contra hge
        rw [List.getElem?_eq_none (Nat.le_of_not_lt hge)] at hne
        exact hne rfl
  have hwaits' := hwaits
  rw [waits] at hwaits'
  simp only [Helps, if_neg hwaits]
  cases hmain : s.main with
  | joinReceiver devs =>
      simp only [hmain] at hwaits' ⊢
      obtain ⟨i, hi, hhandle⟩ := hheld hwaits'
      obtain ⟨r, hr⟩ := h.receivers i hi
      exact ⟨_, hr, i, r, hhandle, rfl⟩
  | joinSender devs =>
      simp only [hmain] at hwaits' ⊢
      obtain ⟨i, hi, hhandle⟩ := hheld hwaits'
      exact ⟨_, h.senders i hi, i, hhandle, rfl⟩
  | joinRelay devs =>
      simp only [hmain] at hwaits' ⊢
      obtain ⟨i, hi, hhandle⟩ := hheld hwaits'
      exact ⟨_, h.relays i hi, i, hhandle, rfl⟩
  | top | query | terminate devs | wakeSender devs | wakeRelay devs | clear devs | update devs
  | send rest devs | relay rest devs | receive rest =>
      simp only [hmain] at hwaits'
      exact absurd trivial hwaits'

/-- The device loop comes to its top within these steps. -/
def Arrives (s : Restart) (ops : List Step) : Prop :=
  ∃ pre, pre <+: ops ∧ (pre.foldl step s).main = .top

theorem Arrives.cons {op : Step} {ops : List Step} (h : (s.step op).Arrives ops) :
    s.Arrives (op :: ops) := by
  obtain ⟨pre, hpre, htop⟩ := h
  exact ⟨op :: pre, (List.prefix_cons_inj op).mpr hpre, htop⟩

theorem Arrives.append {ops ops' : List Step} (h : s.Arrives ops) : s.Arrives (ops ++ ops') := by
  obtain ⟨pre, hpre, htop⟩ := h
  exact ⟨pre, hpre.trans (List.prefix_append ops ops'), htop⟩

/-- No steps take it away from the top. -/
theorem rank_le_of_steps (ops : List Step) (hinv : s.Inv) (hstage : 2 ≤ s.stage) :
    s.Arrives ops ∨ 2 ≤ (ops.foldl step s).stage ∧ (ops.foldl step s).rank ≤ s.rank := by
  induction ops generalizing s with
  | nil => exact .inr ⟨hstage, le_rfl⟩
  | cons op ops ih =>
      rcases step_nearer_or_unmoved hinv hstage op with (htop | ⟨hstage', hless⟩) | hsame
      · exact .inl ⟨[op], ⟨ops, rfl⟩, htop⟩
      · rcases ih (hinv.step op) hstage' with harrives | ⟨hstage'', hle⟩
        · exact .inl harrives.cons
        · exact .inr ⟨hstage'', hle.trans hless.le⟩
      · rcases ih (hinv.step op) (hsame.stage ▸ hstage) with harrives | ⟨hstage'', hle⟩
        · exact .inl harrives.cons
        · refine .inr ⟨hstage'', hle.trans_eq ?_⟩
          rw [rank, rank, hsame.main, hsame.waits]

/-- With a step that helps they bring it nearer. -/
theorem rank_lt_of_helps {op : Step} (ops : List Step) (hinv : s.Inv) (hwoken : s.Woken)
    (hstage : 2 ≤ s.stage) (hmem : op ∈ ops) (hhelps : s.Helps op) :
    s.Arrives ops ∨ 2 ≤ (ops.foldl step s).stage ∧ (ops.foldl step s).rank < s.rank := by
  induction ops generalizing s with
  | nil => exact absurd hmem List.not_mem_nil
  | cons op' ops ih =>
      have hnearer : s.Nearer (s.step op') →
          s.Arrives (op' :: ops) ∨ 2 ≤ (ops.foldl step (s.step op')).stage ∧
            (ops.foldl step (s.step op')).rank < s.rank := by
        rintro (htop | ⟨hstage', hless⟩)
        · exact .inl ⟨[op'], ⟨ops, rfl⟩, htop⟩
        · rcases rank_le_of_steps ops (hinv.step op') hstage' with harrives | ⟨hstage'', hle⟩
          · exact .inl harrives.cons
          · exact .inr ⟨hstage'', hle.trans_lt hless⟩
      rcases List.mem_cons.mp hmem with rfl | hmem'
      · exact hnearer (hhelps.nearer hinv hwoken hstage)
      · rcases step_nearer_or_unmoved hinv hstage op' with hnear | hsame
        · exact hnearer hnear
        · rcases ih (hinv.step op') (hwoken.step hinv op') (hsame.stage ▸ hstage) hmem'
            ((hsame.helps op).mpr hhelps) with harrives | ⟨hstage', hless⟩
          · exact .inl harrives.cons
          · refine .inr ⟨hstage', hless.trans_eq ?_⟩
            rw [rank, rank, hsame.main, hsame.waits]

/-- Each round brings it nearer. -/
theorem arrives_of_rounds (rounds : List (List Step)) (hinv : s.Inv) (hwoken : s.Woken)
    (hstage : 2 ≤ s.stage) (hrounds : s.Rounds rounds) (hrank : s.rank < rounds.length) :
    s.Arrives rounds.flatten := by
  induction rounds generalizing s with
  | nil => exact absurd hrank (Nat.not_lt_zero _)
  | cons ops rest ih =>
      obtain ⟨op, hmem, hhelps⟩ := hrounds.1.helps
      rw [List.flatten_cons]
      rcases rank_lt_of_helps ops hinv hwoken hstage hmem hhelps with harrives | ⟨hstage', hless⟩
      · exact harrives.append
      · have hboth : (ops.foldl step s).Inv ∧ (ops.foldl step s).Woken :=
          List.foldlRecOn (motive := fun s ↦ s.Inv ∧ s.Woken) ops step
            ⟨hinv, hwoken⟩ fun s hs op _ ↦ ⟨hs.1.step op, hs.2.step hs.1 op⟩
        rw [List.length_cons] at hrank
        obtain ⟨pre, hpre, htop⟩ := ih hboth.1 hboth.2 hstage' hrounds.2 (by omega)
        refine ⟨ops ++ pre, (List.prefix_append_right_inj ops).mpr hpre, ?_⟩
        rw [List.foldl_append]
        exact htop

/-- Every restart comes to its end when the threads take turns. -/
def AlwaysRestarts (maxQueueSize : ℕ) : Prop :=
  ∀ (steps : List Step) (rounds : List (List Step)), 2 ≤ (run maxQueueSize steps).stage →
    (run maxQueueSize steps).Rounds rounds → (run maxQueueSize steps).rank < rounds.length →
    (run maxQueueSize steps).Arrives rounds.flatten

theorem alwaysRestarts_of_pos {maxQueueSize : ℕ} (hsize : 1 ≤ maxQueueSize) :
    AlwaysRestarts maxQueueSize :=
  fun steps rounds hstage hrounds hrank ↦
    arrives_of_rounds rounds (inv_run maxQueueSize steps) (woken_run hsize steps) hstage hrounds
      hrank

/-! ## Queues without room -/

/-- `main` waits for a thread that waits for a message. -/
structure Stuck (s : Restart) : Prop where
  main : ∃ devs, s.main = .joinSender devs
  sender : s.senders.held = some .pop
  queue : s.outqueue.queue = []
  maxSize : s.outqueue.maxSize = 0

theorem push_of_maxSize {α : Type} {q : SharedQueue α} (hqueue : q.queue = [])
    (hsize : q.maxSize = 0) (m : α) :
    (q.push m).queue = [] ∧ (q.push m).maxSize = 0 := by
  refine ⟨?_, (q.push_settings m).1.trans hsize⟩
  rcases q.push_cases m with ⟨hlt, -⟩ | ⟨-, -, hpush⟩ | ⟨-, -, hpush⟩
  · rw [hsize] at hlt
    exact absurd hlt (Nat.not_lt_zero _)
  · rw [hpush, hqueue]
  · rw [hpush, hsize]
    rfl

theorem Stuck.step (h : s.Stuck) (hinv : s.Inv) (op : Step) : (s.step op).Stuck := by
  obtain ⟨⟨devs, hmain⟩, hsender, hqueue, hsize⟩ := h
  cases op with
  | main =>
      have hwaits : s.waits ≠ 0 := by
        simp [waits, hmain, senderRank, hsender, WorkerAt.rank]
      rw [Restart.step, mainStep_of_waits hwaits]
      exact ⟨⟨devs, hmain⟩, hsender, hqueue, hsize⟩
  | sender i =>
      rw [Restart.step, senderStep]
      cases ht : s.senders.threads[i]? with
      | none => exact ⟨⟨devs, hmain⟩, hsender, hqueue, hsize⟩
      | some t =>
          by_cases hheld : s.senders.handle = some i
          · -- it waits
            rw [Pool.held_of_handle hheld, ht] at hsender
            obtain rfl := Option.some.inj hsender
            have hstep : WorkerAt.step s.resetWifi s.outqueue .pop = (.pop, s.outqueue) := by
              rw [WorkerAt.step, SharedQueue.tryPop, hqueue]
            refine ⟨⟨devs, hmain⟩, ?_, ?_, ?_⟩
            · exact (Pool.held_update_self hheld ht).trans (by rw [hstep])
            · simp only [hstep, hqueue]
            · simp only [hstep, hsize]
          · have hstep := (step_of_rank (hinv.senders i t ht hheld) s.resetWifi s.outqueue).1
            refine ⟨⟨devs, hmain⟩, (Pool.held_update_ne hheld).trans hsender, ?_, ?_⟩
            · simp only [hstep, hqueue]
            · simp only [hstep, hsize]
  | relay i =>
      rw [Restart.step, relayStep]
      cases s.relays.threads[i]? <;> exact ⟨⟨devs, hmain⟩, hsender, hqueue, hsize⟩
  | receiver i r =>
      obtain ⟨resetWifi, relays, receivers, heq, -⟩ := s.receiverStep_frame i r
      rw [Restart.step, heq]
      exact ⟨⟨devs, hmain⟩, hsender, hqueue, hsize⟩
  | monitor devs' =>
      rw [Restart.step, monitorStep]
      cases s.monitor <;> exact ⟨⟨devs, hmain⟩, hsender, hqueue, hsize⟩
  | usable role devs' => exact ⟨⟨devs, hmain⟩, hsender, hqueue, hsize⟩
  | push m =>
      obtain ⟨hqueue', hsize'⟩ := push_of_maxSize hqueue hsize (some m)
      exact ⟨⟨devs, hmain⟩, hsender, hqueue', hsize'⟩

/-- It waits for ever. -/
theorem Stuck.run (h : s.Stuck) (hinv : s.Inv) (ops : List Step) :
    (ops.foldl Restart.step s).Stuck := by
  have hboth : (ops.foldl Restart.step s).Inv ∧ (ops.foldl Restart.step s).Stuck :=
    List.foldlRecOn (motive := fun s ↦ s.Inv ∧ s.Stuck) ops Restart.step ⟨hinv, h⟩ fun s hs op _ ↦
      ⟨hs.1.step op, hs.2.step hs.1 op⟩
  exact hboth.2

theorem Stuck.not_arrives (h : s.Stuck) (hinv : s.Inv) (ops : List Step) : ¬s.Arrives ops := by
  rintro ⟨pre, -, htop⟩
  obtain ⟨devs, hmain⟩ := (h.run hinv pre).main
  rw [hmain] at htop
  cases htop

/-- The threads can always take turns. -/
theorem exists_rounds (n : ℕ) (s : Restart) : ∃ rounds, rounds.length = n ∧ s.Rounds rounds := by
  induction n generalizing s with
  | zero => exact ⟨[], rfl, trivial⟩
  | succ n ih =>
      let ops : List Step := .main :: ((List.range s.senders.threads.length).map .sender ++
        ((List.range s.relays.threads.length).map .relay ++
          (List.range s.receivers.threads.length).map (.receiver · .nothing)))
      obtain ⟨rounds, hlength, hrounds⟩ := ih (ops.foldl step s)
      refine ⟨ops :: rounds, by rw [List.length_cons, hlength], ⟨?_, ?_, ?_, ?_⟩, hrounds⟩
      · exact List.mem_cons_self
      · exact fun i hi ↦ by simp [ops, hi]
      · exact fun i hi ↦ by simp [ops, hi]
      · exact fun i hi ↦ ⟨.nothing, by simp [ops, hi]⟩

/-- A device is plugged in and sent on; then a second one is plugged in. -/
def secondDevice : List Step :=
  .usable .transmit ["wlan0"] :: .monitor ["wlan0"] :: (List.replicate 15 .main).append
    (.sender 0 :: .monitor ["wlan0", "wlan1"] :: List.replicate 5 .main)

theorem stuck_secondDevice : (run 0 secondDevice).Stuck :=
  ⟨⟨["wlan0", "wlan1"], by decide⟩, by decide, by decide, by decide⟩

/-- `main` gets through every restart, whenever it comes, exactly if the queues have room for a
message.  With a queue size of 0 the message that wakes the send thread is dropped: there is a run
after which `main` joins a send thread that waits, whatever steps are taken from then on. -/
theorem alwaysRestarts_iff (maxQueueSize : ℕ) :
    (AlwaysRestarts maxQueueSize ↔ 1 ≤ maxQueueSize) ∧
      ∃ steps, ∀ ops, (∃ devs, (run 0 (steps ++ ops)).main = .joinSender devs) ∧
        (run 0 (steps ++ ops)).senders.held = some .pop ∧
          (run 0 (steps ++ ops)).outqueue.queue = [] := by
  refine ⟨⟨fun h ↦ ?_, alwaysRestarts_of_pos⟩, secondDevice, fun ops ↦ ?_⟩
  · by_contra hzero
    obtain rfl : maxQueueSize = 0 := by omega
    obtain ⟨rounds, hlength, hrounds⟩ :=
      exists_rounds ((run 0 secondDevice).rank + 1) (run 0 secondDevice)
    refine stuck_secondDevice.not_arrives (inv_run 0 secondDevice) rounds.flatten ?_
    exact h secondDevice rounds (by decide) hrounds (by omega)
  · have hstuck := stuck_secondDevice.run (inv_run 0 secondDevice) ops
    rw [run, List.foldl_append]
    exact ⟨hstuck.main, hstuck.sender, hstuck.queue⟩

end Restart

end WfbBridge
