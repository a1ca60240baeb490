import Mathlib
import WfbBridge.Library.Run

/-!
# `SharedQueue`

The bounded queue between the threads of the bridge (`shared_queue.hh`).  Every
operation holds the mutex, so whatever the threads do is one sequence of calls; an
interleaving is a list of calls, each with the thread that makes it.

`pop` waits while the queue is empty.  A call that still waits has not happened yet,
so an interleaving in which `pop` meets an empty queue is none (`Waiting`).
-/

namespace WfbBridge

/-- `SharedQueue`. -/
structure SharedQueue (α : Type) where
  maxSize : ℕ
  clearOnFull : Bool := false
  queue : List α := []
deriving DecidableEq

namespace SharedQueue

variable {α β τ : Type}

/-- The constructor. -/
def new (maxSize : ℕ) (clearOnFull : Bool := false) : SharedQueue α := { maxSize, clearOnFull }

/-- `push`. -/
def push (q : SharedQueue α) (item : α) : SharedQueue α :=
  let q := if q.maxSize ≤ q.queue.length ∧ q.clearOnFull then { q with queue := [] } else q
  if q.queue.length < q.maxSize then { q with queue := q.queue ++ [item] } else q

/-- `try_pop`. -/
def tryPop (q : SharedQueue α) : Option α × SharedQueue α :=
  match q.queue with
  | [] => (none, q)
  | v :: rest => (some v, { q with queue := rest })

/-- The call of `pop` has not returned. -/
inductive Waiting where
  | waiting
deriving DecidableEq

/-- `pop`. -/
def pop (q : SharedQueue α) : Except Waiting (α × SharedQueue α) :=
  match q.queue with
  | [] => .error .waiting
  | v :: rest => .ok (v, { q with queue := rest })

/-- `size`. -/
def size (q : SharedQueue α) : ℕ := q.queue.length

/-- What a thread asks of the queue. -/
inductive Call (α : Type) where
  | push (item : α)
  | pop
  | tryPop
deriving DecidableEq

/-- One call by some thread, with the item it returned. -/
def step (q : SharedQueue α) : τ × Call α → Except Waiting (Option α × SharedQueue α)
  | (_, .push item) => .ok (none, q.push item)
  | (_, .pop) => do
      let (v, q) ← q.pop
      .ok (some v, q)
  | (_, .tryPop) => .ok q.tryPop

/-- The items pushed, in the order of the pushes. -/
def pushed (calls : List (τ × Call α)) : List α :=
  calls.filterMap fun
    | (_, .push item) => some item
    | _ => none

/-- The items popped, in the order of the pops. -/
def popped (outs : List (Option α)) : List α := outs.reduceOption

/-- The same queue of other items. -/
def map (f : α → β) (q : SharedQueue α) : SharedQueue β :=
  { maxSize := q.maxSize, clearOnFull := q.clearOnFull, queue := q.queue.map f }

/-- The same call with other items. -/
def Call.map (f : α → β) : Call α → Call β
  | .push item => .push (f item)
  | .pop => .pop
  | .tryPop => .tryPop

/-- The calls with the pushes numbered from `n`, which tells equal items apart. -/
def numbered : ℕ → List (τ × Call α) → List (τ × Call (α × ℕ))
  | _, [] => []
  | n, (t, .push item) :: calls => (t, .push (item, n)) :: numbered (n + 1) calls
  | n, (t, .pop) :: calls => (t, .pop) :: numbered n calls
  | n, (t, .tryPop) :: calls => (t, .tryPop) :: numbered n calls

theorem pushed_append (calls calls' : List (τ × Call α)) :
    pushed (calls ++ calls') = pushed calls ++ pushed calls' := List.filterMap_append

theorem popped_append (outs outs' : List (Option α)) :
    popped (outs ++ outs') = popped outs ++ popped outs' := List.reduceOption_append _ _

/-! ## One call -/

/-- What `push` does: it appends, or it meets a full queue. -/
theorem push_cases (q : SharedQueue α) (item : α) :
    (q.queue.length < q.maxSize ∧ q.push item = { q with queue := q.queue ++ [item] }) ∨
    (q.maxSize ≤ q.queue.length ∧ q.clearOnFull = false ∧ q.push item = q) ∨
    (q.maxSize ≤ q.queue.length ∧ q.clearOnFull = true ∧
      q.push item = { q with queue := if 0 < q.maxSize then [item] else [] }) := by
  by_cases hlt : q.queue.length < q.maxSize
  · have hroom : ¬(q.maxSize ≤ q.queue.length ∧ q.clearOnFull = true) :=
      fun h ↦ absurd h.1 (Nat.not_le.mpr hlt)
    exact .inl ⟨hlt, by simp only [push, if_neg hroom, if_pos hlt]⟩
  · have hle := Nat.le_of_not_lt hlt
    apply Or.inr
    by_cases hclear : q.clearOnFull = true
    · refine .inr ⟨hle, hclear, ?_⟩
      have hfull : q.maxSize ≤ q.queue.length ∧ q.clearOnFull = true := ⟨hle, hclear⟩
      simp only [push, if_pos hfull, List.length_nil, List.nil_append]
      split <;> rfl
    · have hroom : ¬(q.maxSize ≤ q.queue.length ∧ q.clearOnFull = true) := fun h ↦ hclear h.2
      exact .inl ⟨hle, Bool.eq_false_iff.mpr hclear, by simp only [push, if_neg hroom, if_neg hlt]⟩

/-- A queue that is not full keeps the item. -/
theorem push_of_lt {q : SharedQueue α} (h : q.size < q.maxSize) (item : α) :
    q.push item = { q with queue := q.queue ++ [item] } := by
  rcases q.push_cases item with ⟨-, hpush⟩ | ⟨hfull, -⟩ | ⟨hfull, -⟩
  · exact hpush
  · exact absurd h (Nat.not_lt.mpr hfull)
  · exact absurd h (Nat.not_lt.mpr hfull)

/-- What a call does: it pushes, it takes the oldest item, or it finds the queue empty. -/
theorem step_cases {q q' : SharedQueue α} {t : τ} {c : Call α} {b : Option α}
    (h : step q (t, c) = .ok (b, q')) :
    (∃ item, c = .push item ∧ b = none ∧ q' = q.push item) ∨
    (∃ v rest, (c = .pop ∨ c = .tryPop) ∧ q.queue = v :: rest ∧ b = some v ∧
      q' = { q with queue := rest }) ∨
    (c = .tryPop ∧ q.queue = [] ∧ b = none ∧ q' = q) := by
  cases c with
  | push item =>
      obtain ⟨rfl, rfl⟩ := Prod.mk.inj (Except.ok.inj h)
      exact .inl ⟨item, rfl, rfl, rfl⟩
  | pop =>
      obtain ⟨⟨v, q₁⟩, hpop, hout⟩ := Checked.bind_eq_ok.mp h
      obtain ⟨rfl, rfl⟩ := Prod.mk.inj (Except.ok.inj hout)
      rw [pop] at hpop
      cases hq : q.queue with
      | nil =>
          rw [hq] at hpop
          cases hpop
      | cons v' rest =>
          rw [hq] at hpop
          obtain ⟨rfl, rfl⟩ := Prod.mk.inj (Except.ok.inj hpop)
          exact .inr (.inl ⟨v', rest, .inl rfl, rfl, rfl, rfl⟩)
  | tryPop =>
      have h : q.tryPop = (b, q') := Except.ok.inj h
      rw [tryPop] at h
      cases hq : q.queue with
      | nil =>
          rw [hq] at h
          obtain ⟨rfl, rfl⟩ := Prod.mk.inj h
          exact .inr (.inr ⟨rfl, rfl, rfl, rfl⟩)
      | cons v rest =>
          rw [hq] at h
          obtain ⟨rfl, rfl⟩ := Prod.mk.inj h
          exact .inr (.inl ⟨v, rest, .inr rfl, rfl, rfl, rfl⟩)

theorem push_settings (q : SharedQueue α) (item : α) :
    (q.push item).maxSize = q.maxSize ∧ (q.push item).clearOnFull = q.clearOnFull := by
  rcases push_cases q item with ⟨-, h⟩ | ⟨-, -, h⟩ | ⟨-, -, h⟩ <;> rw [h] <;> exact ⟨rfl, rfl⟩

theorem length_push_le {q : SharedQueue α} (hq : q.queue.length ≤ q.maxSize) (item : α) :
    (q.push item).queue.length ≤ q.maxSize := by
  rcases push_cases q item with ⟨hlt, h⟩ | ⟨-, -, h⟩ | ⟨-, -, h⟩
  · rw [h, List.length_append]
    exact hlt
  · rwa [h]
  · rw [h]
    by_cases hpos : 0 < q.maxSize
    · simp only [if_pos hpos, List.length_singleton]
      exact hpos
    · simp [hpos]

/-- The settings do not change, and the queue stays within its bound. -/
theorem step_bounded {q q' : SharedQueue α} {c : τ × Call α} {b : Option α}
    (h : step q c = .ok (b, q')) (hq : q.queue.length ≤ q.maxSize) :
    q'.maxSize = q.maxSize ∧ q'.clearOnFull = q.clearOnFull ∧ q'.queue.length ≤ q'.maxSize := by
  rcases step_cases h with ⟨item, -, -, rfl⟩ | ⟨v, rest, -, hv, -, rfl⟩ | ⟨-, -, -, rfl⟩
  · obtain ⟨hmax, hclear⟩ := push_settings q item
    exact ⟨hmax, hclear, hmax.symm ▸ length_push_le hq item⟩
  · refine ⟨rfl, rfl, ?_⟩
    rw [hv] at hq
    exact (Nat.le_succ _).trans hq
  · exact ⟨rfl, rfl, hq⟩

/-! ## Whole interleavings -/

section Interleaving

variable {q q' : SharedQueue α} {calls : List (τ × Call α)} {outs : List (Option α)}

/-- The settings never change, and the queue never holds more than `max_size` items. -/
theorem run_bounded (h : Run.run step q calls = .ok (outs, q'))
    (hq : q.queue.length ≤ q.maxSize) :
    q'.maxSize = q.maxSize ∧ q'.clearOnFull = q.clearOnFull ∧ q'.queue.length ≤ q'.maxSize := by
  refine Run.inv_of_run (P := fun _ p ↦ p.maxSize = q.maxSize ∧ p.clearOnFull = q.clearOnFull ∧
    p.queue.length ≤ p.maxSize) ⟨rfl, rfl, hq⟩ ?_ h
  rintro pre c p b p' - ⟨hmax, hclear, hle⟩ hstep
  obtain ⟨hmax', hclear', hle'⟩ := step_bounded hstep hle
  exact ⟨hmax'.trans hmax, hclear'.trans hclear, hle'⟩

/-- A call keeps the order of what was there, with what it pushes at the end. -/
theorem step_sublist {c : τ × Call α} {b : Option α} (h : step q c = .ok (b, q')) :
    List.Sublist (popped [b] ++ q'.queue) (q.queue ++ pushed [c]) := by
  obtain ⟨t, c⟩ := c
  rcases step_cases h with ⟨item, rfl, rfl, rfl⟩ | ⟨v, rest, hc, hv, rfl, rfl⟩ | ⟨rfl, hq, rfl, rfl⟩
  · change List.Sublist (q.push item).queue (q.queue ++ [item])
    rcases push_cases q item with ⟨-, h⟩ | ⟨-, -, h⟩ | ⟨-, -, h⟩ <;> rw [h]
    · exact List.sublist_append_left _ _
    · change List.Sublist (if 0 < q.maxSize then [item] else []) (q.queue ++ [item])
      split
      · exact List.sublist_append_right _ _
      · exact List.nil_sublist _
  · rw [hv]
    exact List.sublist_append_left (v :: rest) _
  · exact List.sublist_append_left q'.queue _

/-- The items popped and then those still queued are in the order in which they were pushed. -/
theorem run_sublist (h : Run.run step q calls = .ok (outs, q')) :
    List.Sublist (popped outs ++ q'.queue) (q.queue ++ pushed calls) := by
  induction calls generalizing q outs with
  | nil =>
      obtain ⟨rfl, rfl⟩ := Prod.mk.inj (Except.ok.inj h)
      exact List.sublist_append_left _ _
  | cons c calls ih =>
      obtain ⟨b, p, bs, hstep, hrun, rfl⟩ := Run.run_cons_eq_ok.mp h
      rw [← List.singleton_append, popped_append, ← List.singleton_append (l := calls),
        pushed_append, List.append_assoc, ← List.append_assoc q.queue]
      calc List.Sublist (popped [b] ++ (popped bs ++ q'.queue))
            (popped [b] ++ (p.queue ++ pushed calls)) := (ih hrun).append_left _
        List.Sublist _ _ := by
            rw [← List.append_assoc]
            exact (step_sublist hstep).append_right _

/-- Without `clear_on_full` nothing that was queued is lost. -/
theorem run_keeps (h : Run.run step q calls = .ok (outs, q')) (hkeep : q.clearOnFull = false) :
    ∃ l, List.Sublist l (pushed calls) ∧ popped outs ++ q'.queue = q.queue ++ l := by
  induction calls generalizing q outs with
  | nil =>
      obtain ⟨rfl, rfl⟩ := Prod.mk.inj (Except.ok.inj h)
      exact ⟨[], List.nil_sublist _, (List.append_nil _).symm⟩
  | cons c calls ih =>
      obtain ⟨t, c⟩ := c
      obtain ⟨b, p, bs, hstep, hrun, rfl⟩ := Run.run_cons_eq_ok.mp h
      rcases step_cases hstep with ⟨item, rfl, rfl, rfl⟩ | ⟨v, rest, hc, hv, rfl, rfl⟩ |
        ⟨rfl, hq, rfl, rfl⟩
      · obtain ⟨l, hl, heq⟩ := ih hrun ((push_settings q item).2.trans hkeep)
        change ∃ l', List.Sublist l' (item :: pushed calls) ∧ popped bs ++ q'.queue = q.queue ++ l'
        rw [heq]
        rcases push_cases q item with ⟨-, h⟩ | ⟨-, -, h⟩ | ⟨-, hclear, -⟩
        · rw [h]
          exact ⟨item :: l, hl.cons_cons item, List.append_assoc _ _ _⟩
        · rw [h]
          exact ⟨l, hl.cons item, rfl⟩
        · rw [hkeep] at hclear
          cases hclear
      · obtain ⟨l, hl, heq⟩ := ih hrun hkeep
        refine ⟨l, ?_, ?_⟩
        · rcases hc with rfl | rfl <;> exact hl
        · rw [hv]
          exact congrArg (v :: ·) heq
      · obtain ⟨l, hl, heq⟩ := ih hrun hkeep
        exact ⟨l, hl, heq⟩

/-- With `clear_on_full` the newest item is never lost. -/
theorem run_newest (h : Run.run step q calls = .ok (outs, q')) (hclear : q.clearOnFull = true)
    (hmax : 0 < q.maxSize) (hq : q.queue.length ≤ q.maxSize) {item : α}
    (hlast : (pushed calls).getLast? = some item) : item ∈ popped outs ++ q'.queue := by
  induction calls using List.reverseRecOn generalizing outs q' with
  | nil => cases hlast
  | append_singleton calls c ih =>
      obtain ⟨t, c⟩ := c
      obtain ⟨bs, p, bs', hrun, hlastRun, rfl⟩ := Run.run_append_eq_ok.mp h
      obtain ⟨b, p', bs'', hstep, hnil, rfl⟩ := Run.run_cons_eq_ok.mp hlastRun
      obtain ⟨rfl, rfl⟩ := Prod.mk.inj (Except.ok.inj hnil)
      obtain ⟨hpmax, hpclear, -⟩ := run_bounded hrun hq
      rw [pushed_append] at hlast
      rw [popped_append, List.append_assoc]
      rcases step_cases hstep with ⟨item', rfl, rfl, rfl⟩ | ⟨v, rest, hc, hv, rfl, rfl⟩ |
        ⟨rfl, hp, rfl, rfl⟩
      · -- whichever way `push` goes, it leaves its own item at the end of the queue
        obtain rfl : item' = item := by
          change (pushed calls ++ [item']).getLast? = some item at hlast
          rw [List.getLast?_concat] at hlast
          exact Option.some.inj hlast
        refine List.mem_append_right _ (List.mem_append_right _ ?_)
        rcases push_cases p item' with ⟨-, h⟩ | ⟨-, hkeep, -⟩ | ⟨-, -, h⟩
        · simp [h]
        · rw [hpclear, hclear] at hkeep
          cases hkeep
        · rw [h, hpmax]
          simp [hmax]
      · have hlast' : (pushed calls).getLast? = some item := by
          rcases hc with rfl | rfl <;> simpa [pushed] using hlast
        have := ih hrun hlast'
        rw [hv] at this
        exact this
      · exact ih hrun (by simpa [pushed] using hlast)

end Interleaving

/-! ## Numbered items -/

theorem push_map (f : α → β) (q : SharedQueue α) (item : α) :
    (q.map f).push (f item) = (q.push item).map f := by
  simp only [push, map, List.length_map]
  by_cases hfull : q.maxSize ≤ q.queue.length ∧ q.clearOnFull = true
  · simp only [if_pos hfull, List.length_nil]
    split <;> rfl
  · simp only [if_neg hfull, List.length_map]
    split
    · rw [List.map_append, List.map_singleton]
    · rfl

/-- The queue does not look at its items. -/
theorem step_map (f : α → β) (q : SharedQueue α) (t : τ) (c : Call α) :
    step (q.map f) (t, c.map f) = (step q (t, c)).map (Prod.map (Option.map f) (map f)) := by
  cases c with
  | push item =>
      change Except.ok (none, (q.map f).push (f item)) = Except.ok (none, (q.push item).map f)
      rw [push_map]
  | pop =>
      obtain ⟨maxSize, clearOnFull, queue⟩ := q
      cases queue <;> rfl
  | tryPop =>
      obtain ⟨maxSize, clearOnFull, queue⟩ := q
      cases queue <;> rfl

theorem run_map (f : α → β) (q : SharedQueue α) (calls : List (τ × Call α)) :
    Run.run step (q.map f) (calls.map (Prod.map id (Call.map f))) =
      (Run.run step q calls).map (Prod.map (List.map (Option.map f)) (map f)) := by
  induction calls generalizing q with
  | nil => rfl
  | cons c calls ih =>
      obtain ⟨t, c⟩ := c
      rw [List.map_cons, Run.run, Run.run, Prod.map_apply, id, step_map]
      cases step q (t, c) with
      | error e => rfl
      | ok bp =>
          obtain ⟨b, p⟩ := bp
          simp only [Except.map, Prod.map_apply, Checked.ok_bind, ih]
          cases Run.run step p calls <;> rfl

theorem map_numbered (n : ℕ) (calls : List (τ × Call α)) :
    (numbered n calls).map (Prod.map id (Call.map Prod.fst)) = calls := by
  induction calls generalizing n with
  | nil => rfl
  | cons c calls ih =>
      obtain ⟨t, c⟩ := c
      cases c <;> exact congrArg ((t, _) :: ·) (ih _)

theorem pushed_numbered (n : ℕ) (calls : List (τ × Call α)) :
    pushed (numbered n calls) = (pushed calls).zipIdx n := by
  induction calls generalizing n with
  | nil => rfl
  | cons c calls ih =>
      obtain ⟨t, c⟩ := c
      cases c with
      | push item => exact congrArg ((item, n) :: ·) (ih (n + 1))
      | pop => exact ih n
      | tryPop => exact ih n

theorem numbered_append (n : ℕ) (calls calls' : List (τ × Call α)) :
    numbered n (calls ++ calls') =
      numbered n calls ++ numbered (n + (pushed calls).length) calls' := by
  induction calls generalizing n with
  | nil => rfl
  | cons c calls ih =>
      obtain ⟨t, c⟩ := c
      cases c with
      | push item =>
          change (t, _) :: numbered (n + 1) (calls ++ calls') =
            (t, _) :: (_ ++ numbered (n + ((pushed calls).length + 1)) calls')
          rw [ih, Nat.add_right_comm n 1, Nat.add_assoc]
      | pop => exact congrArg ((t, _) :: ·) (ih n)
      | tryPop => exact congrArg ((t, _) :: ·) (ih n)

/-- Every interleaving has its numbered twin. -/
theorem exists_numbered {maxSize : ℕ} {clearOnFull : Bool} {calls : List (τ × Call α)}
    {outs : List (Option α)} {q : SharedQueue α}
    (h : Run.run step (new maxSize clearOnFull) calls = .ok (outs, q)) :
    ∃ outs' q', Run.run step (new maxSize clearOnFull) (numbered 0 calls) = .ok (outs', q') ∧
      outs = outs'.map (Option.map Prod.fst) ∧ q = q'.map Prod.fst := by
  have hmap := run_map Prod.fst (new maxSize clearOnFull) (numbered 0 calls)
  rw [map_numbered] at hmap
  cases hrun : Run.run step (new maxSize clearOnFull) (numbered 0 calls) with
  | error e =>
      rw [hrun] at hmap
      cases h.symm.trans hmap
  | ok r =>
      rw [hrun] at hmap
      obtain ⟨rfl, rfl⟩ := Prod.mk.inj (Except.ok.inj (h.symm.trans hmap))
      exact ⟨r.1, r.2, rfl, rfl, rfl⟩

/-- Without `clear_on_full`, a push that found room is the only way
for its item to be delivered or still queued. -/
theorem mem_iff_of_push {maxSize : ℕ} {pre post : List (τ × Call α)} {t : τ} {item : α}
    {bs : List (Option α)} {p : SharedQueue α}
    (hpre : Run.run step (new maxSize) pre = .ok (bs, p))
    {outs : List (Option (α × ℕ))} {q : SharedQueue (α × ℕ)}
    (h : Run.run step (new maxSize) (numbered 0 (pre ++ (t, .push item) :: post)) = .ok (outs, q)) :
    (item, (pushed pre).length) ∈ popped outs ++ q.queue ↔ p.queue.length < maxSize := by
  set n := (pushed pre).length with hn
  rw [numbered_append, Nat.zero_add, ← hn] at h
  obtain ⟨bs₁, p₁, bs₂, hrun, hrest, rfl⟩ := Run.run_append_eq_ok.mp h
  obtain ⟨bs₁', p₁', hrun', -, rfl⟩ := exists_numbered hpre
  obtain ⟨rfl, rfl⟩ := Prod.mk.inj (Except.ok.inj (hrun.symm.trans hrun'))
  obtain ⟨b, p₂, bs₃, hstep, hpost, rfl⟩ := Run.run_cons_eq_ok.mp hrest
  obtain ⟨rfl, rfl⟩ := Prod.mk.inj (Except.ok.inj hstep)
  obtain ⟨hmax, hclear, -⟩ := run_bounded hrun (Nat.zero_le _)
  have hmax : p₁.maxSize = maxSize := hmax
  obtain ⟨l, hl, heq⟩ := run_keeps hpost ((push_settings p₁ _).2.trans hclear)
  -- what is there before has a smaller number, what comes later a larger one
  have hbefore : (item, n) ∉ popped bs₁ ++ p₁.queue := by
    intro hmem
    have hmem := (run_sublist hrun).subset hmem
    rw [pushed_numbered] at hmem
    have := List.mem_zipIdx hmem
    omega
  have hafter : (item, n) ∉ l := by
    intro hmem
    have hmem := hl.subset hmem
    rw [pushed_numbered] at hmem
    have := List.mem_zipIdx hmem
    omega
  have hlen : (p₁.map Prod.fst).queue.length = p₁.queue.length := List.length_map _
  have hdelivered : popped (bs₁ ++ none :: bs₃) ++ q.queue =
      popped bs₁ ++ ((p₁.push (item, n)).queue ++ l) := by
    rw [popped_append, List.append_assoc, ← heq]
    rfl
  rw [hdelivered, hlen]
  rcases push_cases p₁ (item, n) with ⟨hlt, hpush⟩ | ⟨hle, -, hpush⟩ | ⟨-, hclear', -⟩
  · refine iff_of_true ?_ (hmax ▸ hlt)
    rw [hpush]
    simp
  · refine iff_of_false ?_ (Nat.not_lt.mpr (hmax ▸ hle))
    rw [hpush, ← List.append_assoc]
    exact fun h ↦ (List.mem_append.mp h).elim hbefore hafter
  · rw [hclear] at hclear'
    cases hclear'

/-- For every interleaving of calls the queue is a bounded first-in first-out queue.  The `n`-th
item pushed is numbered `n`, counting from 0, to tell equal items apart. -/
theorem sharedQueue_fifo (maxSize : ℕ) (clearOnFull : Bool) (calls : List (τ × Call α))
    (outs : List (Option α)) (q : SharedQueue α)
    (hrun : Run.run step (new maxSize clearOnFull) calls = .ok (outs, q)) :
    q.queue.length ≤ maxSize ∧
    ∃ outs' q', Run.run step (new maxSize clearOnFull) (numbered 0 calls) = .ok (outs', q') ∧
      outs = outs'.map (Option.map Prod.fst) ∧ q = q'.map Prod.fst ∧
      List.Sublist (popped outs') (pushed calls).zipIdx ∧
      (clearOnFull = false → ∀ pre t item post bs p, calls = pre ++ (t, .push item) :: post →
        Run.run step (new maxSize clearOnFull) pre = .ok (bs, p) →
        ((item, (pushed pre).length) ∉ popped outs' ++ q'.queue ↔ p.queue.length = maxSize)) ∧
      (clearOnFull = true → 0 < maxSize → ∀ newest, (pushed calls).zipIdx.getLast? = some newest →
        newest ∈ q'.queue ∨ newest ∈ popped outs') := by
  obtain ⟨hmax, -, hle⟩ := run_bounded hrun (Nat.zero_le _)
  obtain ⟨outs', q', hrun', hout, hq⟩ := exists_numbered hrun
  refine ⟨hle.trans_eq hmax, outs', q', hrun', hout, hq, ?_, ?_, ?_⟩
  · have h := run_sublist hrun'
    rw [pushed_numbered] at h
    exact (List.sublist_append_left _ _).trans h
  · rintro rfl pre t item post bs p rfl hpre
    obtain ⟨hpmax, -, hple⟩ := run_bounded hpre (Nat.zero_le _)
    have hple : p.queue.length ≤ maxSize := hple.trans_eq hpmax
    rw [mem_iff_of_push hpre hrun']
    omega
  · intro hclear hpos newest hnewest
    rw [← pushed_numbered] at hnewest
    have := run_newest hrun' hclear hpos (Nat.zero_le _) hnewest
    exact (List.mem_append.mp this).symm

/-- Two threads and room for one item: the second push is dropped, the third is not. -/
theorem sharedQueue_fifo_two_threads :
    ∃ outs q, Run.run step (new 1 : SharedQueue (ℕ × ℕ))
        (numbered 0 [(0, .push 7), (1, .push 7), (1, .pop), (0, .push 2)]) = .ok (outs, q) ∧
      (7, 1) ∉ popped outs ++ q.queue ∧ ¬(2, 2) ∉ popped outs ++ q.queue := by
  obtain ⟨-, outs, q, hrun, -, -, -, hdropped, -⟩ := sharedQueue_fifo 1 false
    [(0, .push 7), (1, .push 7), (1, .pop), (0, .push 2)] [none, none, some 7, none]
    ⟨1, false, [2]⟩ (by decide)
  refine ⟨outs, q, hrun, ?_, ?_⟩
  · exact (hdropped rfl [(0, .push 7)] 1 7 [(1, .pop), (0, .push 2)] [none] ⟨1, false, [7]⟩ rfl
      (by decide)).mpr rfl
  · have hkept := hdropped rfl [(0, .push 7), (1, .push 7), (1, .pop)] 0 2 []
      [none, none, some 7] ⟨1, false, []⟩ rfl (by decide)
    exact fun hmissing ↦ absurd (hkept.mp hmissing) (by decide)

end SharedQueue

end WfbBridge
