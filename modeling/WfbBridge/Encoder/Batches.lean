import Mathlib
import WfbBridge.Encoder.Basic

/-!
# What the encoder is for

Seen from outside, the encoder cuts the stream of messages into batches: a batch
is closed when it has `n` messages, or earlier by a flush.  `Batches` says just
that.  `Encoder/Format.lean` shows that the batches are what goes on the wire.
-/

namespace WfbBridge

variable {α : Type*}

/-- A closed batch, and whether it was a flush that closed it. -/
structure Batch (α : Type*) where
  items : List α
  flushed : Bool
deriving DecidableEq

/-- The batches closed so far and the items of the next one. -/
structure Batches (α : Type*) where
  closed : List (Batch α) := []
  pending : List α := []
deriving DecidableEq

namespace Batches

/-- Add an item to a batch of at most `n`. -/
def push (n : ℕ) (b : Batches α) (a : α) : Batches α :=
  if b.pending.length + 1 = n then { closed := b.closed ++ [⟨b.pending ++ [a], false⟩] }
  else { b with pending := b.pending ++ [a] }

/-- Close the batch, unless it is empty. -/
def flush (b : Batches α) : Batches α :=
  if b.pending.isEmpty then b else { closed := b.closed ++ [⟨b.pending, true⟩] }

/-- An operation on the encoder, as one on the batches. -/
def step (n : ℕ) (b : Batches (List UInt8)) : FECEncoder.Op → Batches (List UInt8)
  | .push msg => b.push n msg
  | .flush => b.flush
  | .get => b

/-- The items in the order in which they came. -/
def items (b : Batches α) : List α := b.closed.flatMap Batch.items ++ b.pending

/-- The bounds on the batches. -/
structure Bounded (n : ℕ) (b : Batches α) : Prop where
  pending_lt : b.pending.length < n
  closed_pos : ∀ c ∈ b.closed, 0 < c.items.length
  closed_le : ∀ c ∈ b.closed, c.items.length ≤ n
  closed_lt : ∀ c ∈ b.closed, c.items.length < n → c.flushed = true

theorem Bounded.empty {n : ℕ} (hn : 0 < n) : Bounded n ({} : Batches α) :=
  ⟨hn, by simp, by simp, by simp⟩

theorem Bounded.close {n : ℕ} {b : Batches α} (h : Bounded n b) {c : Batch α} (hn : 0 < n)
    (hpos : 0 < c.items.length) (hle : c.items.length ≤ n)
    (hlt : c.items.length < n → c.flushed = true) :
    Bounded n { closed := b.closed ++ [c] : Batches α } := by
  have hall : ∀ {p : Batch α → Prop}, (∀ c ∈ b.closed, p c) → p c → ∀ c' ∈ b.closed ++ [c],
      p c' := by
    intro p hb hc c' hc'
    rcases List.mem_append.mp hc' with hc' | hc'
    · exact hb c' hc'
    · rwa [List.mem_singleton.mp hc']
  exact ⟨hn, hall h.closed_pos hpos, hall h.closed_le hle, hall h.closed_lt hlt⟩

theorem Bounded.push {n : ℕ} {b : Batches α} (h : Bounded n b) (a : α) :
    Bounded n (b.push n a) := by
  have hlt := h.pending_lt
  rw [Batches.push]
  split
  case isTrue hfull => exact h.close (by omega) (by simp) (by simp; omega) (by simp; omega)
  case isFalse hfull => exact ⟨by simp; omega, h.closed_pos, h.closed_le, h.closed_lt⟩

theorem Bounded.flush {n : ℕ} {b : Batches α} (h : Bounded n b) : Bounded n b.flush := by
  have hlt := h.pending_lt
  rw [Batches.flush]
  split
  case isTrue => exact h
  case isFalse hne =>
      have hpos : 0 < b.pending.length := List.length_pos_of_ne_nil (by simpa using hne)
      exact h.close (by omega) hpos hlt.le (fun _ ↦ rfl)

theorem items_push (n : ℕ) (b : Batches α) (a : α) : (b.push n a).items = b.items ++ [a] := by
  rw [push]
  split <;> simp [items]

theorem items_flush (b : Batches α) : b.flush.items = b.items := by
  rw [flush]
  split <;> simp [items]

theorem pending_flush (b : Batches α) : b.flush.pending = [] := by
  rw [flush]
  split
  case isTrue h => simpa using h
  case isFalse => rfl

end Batches

/-- The messages a list of operations adds. -/
def messages (ops : List FECEncoder.Op) : List (List UInt8) :=
  ops.filterMap fun
    | .push msg => some msg
    | _ => none

/-- The batches after a list of operations. -/
def batches (n : ℕ) (ops : List FECEncoder.Op) : Batches (List UInt8) :=
  ops.foldl (Batches.step n) {}

theorem batches_concat (n : ℕ) (ops : List FECEncoder.Op) (op : FECEncoder.Op) :
    batches n (ops ++ [op]) = (batches n ops).step n op := by
  rw [batches, List.foldl_append]
  rfl

/-- Batching keeps the messages, in order, and the batches in their bounds. -/
theorem batches_spec {n : ℕ} (hn : 0 < n) (ops : List FECEncoder.Op) :
    (batches n ops).items = messages ops ∧ (batches n ops).Bounded n := by
  induction ops using List.reverseRecOn with
  | nil => exact ⟨rfl, Batches.Bounded.empty hn⟩
  | append_singleton ops op ih =>
      obtain ⟨hitems, hb⟩ := ih
      rw [batches_concat, messages, List.filterMap_append, ← messages, ← hitems]
      cases op with
      | push msg => exact ⟨Batches.items_push n _ msg, hb.push msg⟩
      | flush => exact ⟨(Batches.items_flush _).trans (List.append_nil _).symm, hb.flush⟩
      | get => exact ⟨(List.append_nil _).symm, hb⟩

end WfbBridge
