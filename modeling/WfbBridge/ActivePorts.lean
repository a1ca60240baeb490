import Mathlib
import WfbBridge.Library.SortedMap

/-!
# Active ports

`add_send_block` counts the blocks and bytes that are sent on every ip port (`transfer_stats.cc`),
and `log_thread` posts the ports that were active since the last time, from two snapshots of these
counters (`log_thread.cc`).

A run is a list of events, calls of `add_send_block` and iterations of `log_thread`, in the order in
which they lock the counters: an iteration is at its `get_stats`, and works on what it got there.

The snapshot of the last time is replaced before the two are compared.
-/

namespace WfbBridge

/-- `BlockBytes`. -/
structure BlockBytes where
  blocks : UInt32 := 0
  bytes : UInt64 := 0
deriving DecidableEq

namespace BlockBytes

/-- `operator -`. -/
def sub (bb bb' : BlockBytes) : BlockBytes := ⟨bb.blocks - bb'.blocks, bb.bytes - bb'.bytes⟩

/-- `operator +=`. -/
def add (bb : BlockBytes) (bytes : UInt32) : BlockBytes :=
  ⟨bb.blocks + 1, bb.bytes + bytes.toUInt64⟩

/-- `operator <<`. -/
def print (bb : BlockBytes) : String :=
  "(" ++ toString bb.blocks ++ "," ++ toString (bb.bytes / 1000) ++ "kB)"

end BlockBytes

/-- The counters of the ports: `m_ip_port_blocks`. -/
def addSendBlock (m : List (ℕ × BlockBytes)) (ipPort : ℕ) (bytes : UInt32) :
    List (ℕ × BlockBytes) :=
  let (bb, m) := SortedMap.subscript {} ipPort m
  SortedMap.insert ipPort (bb.add bytes) m

/-- A turn of the loop over the ports, on the ports to be posted and on `ps`. -/
def addActivePort (acc : List (ℕ × BlockBytes) × List (ℕ × BlockBytes)) (itr : ℕ × BlockBytes) :
    List (ℕ × BlockBytes) × List (ℕ × BlockBytes) :=
  let (prev, ps) := SortedMap.subscript {} itr.1 acc.2
  let diff := itr.2.sub prev
  (if 0 < diff.blocks then acc.1 ++ [(itr.1, diff)] else acc.1, ps)

/-- The counters, and what `log_thread` keeps of them. -/
structure PortLog where
  ipPortBlocks : List (ℕ × BlockBytes)
  ps : List (ℕ × BlockBytes)
deriving DecidableEq

namespace PortLog

/-- `log_thread` takes its first snapshot after these blocks were sent. -/
def start (sent : List (ℕ × UInt32)) : PortLog :=
  let m := sent.foldl (fun m call ↦ addSendBlock m call.1 call.2) []
  ⟨m, m⟩

/-- An iteration in which it is time to post: the ports of the line, with their blocks and bytes. -/
def post (l : PortLog) : List (ℕ × BlockBytes) × PortLog :=
  let s := l.ipPortBlocks
  let ps := s
  let (line, ps) := s.foldl addActivePort ([], ps)
  (line, { l with ps })

end PortLog

/-- The text of the line. -/
def activePortsLine (line : List (ℕ × BlockBytes)) : String :=
  "Active ports:  " ++ String.join (line.map fun e ↦ toString e.1 ++ ": " ++ e.2.print ++ "  ")

/-- What happens to the counters. -/
inductive LogEvent where
  | addSendBlock (ipPort : ℕ) (bytes : UInt32)
  /-- an iteration of `log_thread`, in which it is time to post or not -/
  | iterate (isTime : Bool)
deriving DecidableEq

/-- One event. -/
def PortLog.step (l : PortLog) : LogEvent → PortLog
  | .addSendBlock ipPort bytes =>
      { l with ipPortBlocks := WfbBridge.addSendBlock l.ipPortBlocks ipPort bytes }
  | .iterate true => l.post.2
  | .iterate false => l

/-! ## What should be posted -/

/-- The calls since the last line was posted. -/
def sinceLast (events : List LogEvent) : List (ℕ × UInt32) :=
  events.foldl (fun calls e ↦
    match e with
    | .addSendBlock ipPort bytes => calls ++ [(ipPort, bytes)]
    | .iterate true => []
    | .iterate false => calls) []

/-- The number of blocks that were sent on a port. -/
def blocksOn (ipPort : ℕ) (calls : List (ℕ × UInt32)) : ℕ := calls.countP fun call ↦ call.1 = ipPort

/-- The number of bytes. -/
def bytesOn (ipPort : ℕ) (calls : List (ℕ × UInt32)) : ℕ :=
  ((calls.filter fun call ↦ call.1 = ipPort).map fun call ↦ call.2.toNat).sum

/-- A line has the ports of these calls, each once and with its blocks and bytes. -/
structure Covers (line : List (ℕ × BlockBytes)) (calls : List (ℕ × UInt32)) : Prop where
  nodup : (line.map Prod.fst).Nodup
  ports : ∀ ipPort, ipPort ∈ line.map Prod.fst ↔ 0 < blocksOn ipPort calls
  counts : ∀ e ∈ line, e.2.blocks.toNat = blocksOn e.1 calls ∧ e.2.bytes.toNat = bytesOn e.1 calls

/-- Every line that is posted in a run covers the calls since the last one. -/
def ReportsActive (sent : List (ℕ × UInt32)) (events : List LogEvent) : Prop :=
  ∀ pre rest, events = pre ++ .iterate true :: rest →
    Covers (pre.foldl PortLog.step (.start sent)).post.1 (sinceLast pre)

/-- Nothing was sent. -/
def Quiet (events : List LogEvent) : Prop := ∀ ipPort bytes, .addSendBlock ipPort bytes ∉ events

/-! ## What is posted -/

theorem BlockBytes.sub_self (bb : BlockBytes) : bb.sub bb = {} := by
  rw [sub, UInt32.sub_self, UInt64.sub_self]

theorem sorted_addSendBlock {m : List (ℕ × BlockBytes)} (h : SortedMap.Sorted m) (ipPort : ℕ)
    (bytes : UInt32) :
    SortedMap.Sorted (addSendBlock m ipPort bytes) := by
  rw [addSendBlock, SortedMap.subscript]
  cases SortedMap.find ipPort m with
  | some bb => exact h.insert
  | none => exact h.insert.insert

theorem sorted_foldl_addSendBlock (sent : List (ℕ × UInt32)) {m : List (ℕ × BlockBytes)}
    (h : SortedMap.Sorted m) :
    SortedMap.Sorted (sent.foldl (fun m call ↦ addSendBlock m call.1 call.2) m) := by
  induction sent generalizing m with
  | nil => exact h
  | cons call sent ih => exact ih (sorted_addSendBlock h call.1 call.2)

/-- Compared with a map that has its entries, a map shows no activity. -/
theorem foldl_addActivePort {s : List (ℕ × BlockBytes)} (ps : List (ℕ × BlockBytes))
    (h : ∀ e ∈ s, SortedMap.find e.1 ps = some e.2) :
    s.foldl addActivePort ([], ps) = ([], ps) := by
  induction s with
  | nil => rfl
  | cons e s ih =>
      have hturn : addActivePort ([], ps) e = ([], ps) := by
        rw [addActivePort, SortedMap.subscript, h e List.mem_cons_self]
        simp only [BlockBytes.sub_self]
        rfl
      rw [List.foldl_cons, hturn]
      exact ih fun e' he' ↦ h e' (List.mem_cons_of_mem _ he')

namespace PortLog

/-- The line is empty, whatever was sent. -/
theorem post_eq {l : PortLog} (h : SortedMap.Sorted l.ipPortBlocks) :
    l.post = ([], { l with ps := l.ipPortBlocks }) := by
  rw [post]
  simp only [foldl_addActivePort l.ipPortBlocks fun e he ↦ h.find_of_mem he]

theorem sorted_step {l : PortLog} (h : SortedMap.Sorted l.ipPortBlocks) (e : LogEvent) :
    SortedMap.Sorted (l.step e).ipPortBlocks := by
  cases e with
  | addSendBlock ipPort bytes => exact sorted_addSendBlock h ipPort bytes
  | iterate isTime =>
      cases isTime with
      | false => exact h
      | true =>
          change SortedMap.Sorted l.post.2.ipPortBlocks
          rw [post_eq h]
          exact h

theorem sorted_run (events : List LogEvent) {l : PortLog} (h : SortedMap.Sorted l.ipPortBlocks) :
    SortedMap.Sorted (events.foldl step l).ipPortBlocks := by
  induction events generalizing l with
  | nil => exact h
  | cons e events ih => exact ih (sorted_step h e)

/-- In every run, a line has no ports. -/
theorem post_run (sent : List (ℕ × UInt32)) (events : List LogEvent) :
    (events.foldl step (start sent)).post.1 = [] := by
  have hstart : SortedMap.Sorted (start sent).ipPortBlocks := sorted_foldl_addSendBlock sent .nil
  rw [post_eq (sorted_run events hstart)]

end PortLog

theorem covers_nil_iff {calls : List (ℕ × UInt32)} : Covers [] calls ↔ calls = [] := by
  constructor
  · intro h
    cases calls with
    | nil => rfl
    | cons call calls =>
        have hpos : 0 < blocksOn call.1 (call :: calls) := by simp [blocksOn]
        exact absurd ((h.ports call.1).mpr hpos) List.not_mem_nil
  · rintro rfl
    exact ⟨List.nodup_nil, fun p ↦ by simp [blocksOn], fun e he ↦ absurd he List.not_mem_nil⟩

@[simp]
theorem sinceLast_concat (events : List LogEvent) (e : LogEvent) :
    sinceLast (events ++ [e]) = match e with
      | .addSendBlock ipPort bytes => sinceLast events ++ [(ipPort, bytes)]
      | .iterate true => []
      | .iterate false => sinceLast events := by
  rw [sinceLast, List.foldl_concat]
  rfl

theorem Quiet.concat {events : List LogEvent} (h : Quiet events) (isTime : Bool) :
    Quiet (events ++ [.iterate isTime]) := by
  intro ipPort bytes hmem
  rcases List.mem_append.mp hmem with hmem | hmem
  · exact h ipPort bytes hmem
  · cases List.mem_singleton.mp hmem

theorem Quiet.sinceLast_eq {events : List LogEvent} (h : Quiet events) : sinceLast events = [] := by
  induction events using List.reverseRecOn with
  | nil => rfl
  | append_singleton events e ih =>
      have hevents := ih fun ipPort bytes hmem ↦ h ipPort bytes (List.mem_append_left _ hmem)
      rw [sinceLast_concat]
      cases e with
      | addSendBlock ipPort bytes =>
          exact absurd (List.mem_append_right _ List.mem_cons_self) (h ipPort bytes)
      | iterate isTime =>
          cases isTime with
          | true => rfl
          | false => exact hevents

/-- If nothing was sent between two lines, nor after the last one, then nothing was sent. -/
theorem quiet_of_sinceLast {events : List LogEvent}
    (h : ∀ pre rest, events = pre ++ .iterate true :: rest → sinceLast pre = [])
    (hlast : sinceLast events = []) : Quiet events := by
  induction events using List.reverseRecOn with
  | nil => exact fun ipPort bytes ↦ List.not_mem_nil
  | append_singleton events e ih =>
      have hpre : ∀ pre rest, events = pre ++ .iterate true :: rest → sinceLast pre = [] := by
        rintro pre rest rfl
        exact h pre (rest ++ [e]) (by simp)
      rw [sinceLast_concat] at hlast
      cases e with
      | addSendBlock ipPort bytes => exact absurd hlast (by simp)
      | iterate isTime =>
          cases isTime with
          | true => exact (ih hpre (h events [] rfl)).concat true
          | false => exact (ih hpre hlast).concat false

/-- The lines cover the calls exactly when nothing is sent before a line. -/
theorem reportsActive_iff (sent : List (ℕ × UInt32)) (events : List LogEvent) :
    ReportsActive sent events ↔ ∀ pre rest, events = pre ++ .iterate true :: rest → Quiet pre := by
  have hcovers : ReportsActive sent events ↔
      ∀ pre rest, events = pre ++ .iterate true :: rest → sinceLast pre = [] := by
    refine forall₃_congr fun pre rest hevents ↦ ?_
    rw [PortLog.post_run, covers_nil_iff]
  rw [hcovers]
  constructor
  · rintro h pre rest rfl
    refine quiet_of_sinceLast (fun pre' rest' hpre ↦ ?_) (h pre rest rfl)
    exact h pre' (rest' ++ .iterate true :: rest) (by simp [hpre])
  · exact fun h pre rest hevents ↦ (h pre rest hevents).sinceLast_eq

/-- The text of every line. -/
theorem activePortsLine_run (sent : List (ℕ × UInt32)) (events : List LogEvent) :
    activePortsLine (events.foldl PortLog.step (.start sent)).post.1 = "Active ports:  " := by
  rw [PortLog.post_run]
  rfl

/-- Two blocks for one port, and a line without it. -/
theorem not_reportsActive_two_blocks :
    ¬ReportsActive [] [.addSendBlock 5600 1400, .iterate false, .addSendBlock 5600 700,
      .iterate true] := by
  intro h
  have hcovers := h [.addSendBlock 5600 1400, .iterate false, .addSendBlock 5600 700] [] rfl
  exact absurd ((hcovers.ports 5600).mpr (by decide)) (by decide)

end WfbBridge
