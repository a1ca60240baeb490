import Mathlib
import WfbBridge.Library.Checked

/-!
# Runs of a step function

A machine that may fail is a step function `step : σ → α → Except ε (β × σ)`: in
state `s` the input `a` gives an output and the next state, or stops the machine.
`run step s as` feeds it a list of inputs and collects the outputs.
-/

namespace Run

open Checked

universe u v w

variable {σ β : Type u} {α : Type w} {ε : Type v} {step : σ → α → Except ε (β × σ)}

/-- Feed a list of inputs, collecting the outputs. -/
def run (step : σ → α → Except ε (β × σ)) : σ → List α → Except ε (List β × σ)
  | s, [] => .ok ([], s)
  | s, a :: as => do
      let (b, s) ← step s a
      let (bs, s) ← run step s as
      .ok (b :: bs, s)

@[simp] theorem run_nil (s : σ) : run step s [] = .ok ([], s) := rfl

theorem run_cons_eq_ok {s : σ} {a : α} {as : List α} {bs : List β} {s' : σ} :
    run step s (a :: as) = .ok (bs, s') ↔
      ∃ b t bs', step s a = .ok (b, t) ∧ run step t as = .ok (bs', s') ∧ bs = b :: bs' := by
  simp only [run, bind_eq_ok, Prod.exists, Except.ok.injEq, Prod.mk.injEq]
  constructor
  · rintro ⟨b, t, hb, bs', t', hrun, rfl, rfl⟩
    exact ⟨b, t, bs', hb, hrun, rfl⟩
  · rintro ⟨b, t, bs', hb, hrun, rfl⟩
    exact ⟨b, t, hb, bs', s', hrun, rfl, rfl⟩

/-- A run over a concatenation is a run followed by a run. -/
theorem run_append (s : σ) (as as' : List α) : run step s (as ++ as') = (do
    let (b₁, t) ← run step s as
    let (b₂, t') ← run step t as'
    .ok (b₁ ++ b₂, t')) := by
  induction as generalizing s with
  | nil =>
      change run step s as' = (do
        let (b₂, t') ← run step s as'
        .ok ([] ++ b₂, t'))
      cases run step s as' <;> rfl
  | cons a as ih =>
      rw [List.cons_append, run, run]
      cases step s a with
      | error e => rfl
      | ok bt =>
          simp only [ok_bind, ih]
          cases run step bt.2 as with
          | error e => rfl
          | ok bt' =>
              simp only [ok_bind]
              cases run step bt'.2 as' <;> rfl

theorem run_append_eq_ok {s : σ} {as as' : List α} {bs : List β} {s' : σ} :
    run step s (as ++ as') = .ok (bs, s') ↔
      ∃ b₁ t b₂, run step s as = .ok (b₁, t) ∧ run step t as' = .ok (b₂, s') ∧ bs = b₁ ++ b₂ := by
  simp only [run_append, bind_eq_ok, Prod.exists, Except.ok.injEq, Prod.mk.injEq]
  constructor
  · rintro ⟨b₁, t, h₁, b₂, t', h₂, rfl, rfl⟩
    exact ⟨b₁, t, b₂, h₁, h₂, rfl⟩
  · rintro ⟨b₁, t, b₂, h₁, h₂, rfl⟩
    exact ⟨b₁, t, h₁, b₂, s', h₂, rfl, rfl⟩

/-- A run over runs is a run over the concatenation. -/
theorem run_flatten {s s' : σ} {ls : List (List α)} {bs : List (List β)}
    (h : run (run step) s ls = .ok (bs, s')) : run step s ls.flatten = .ok (bs.flatten, s') := by
  induction ls generalizing s bs with
  | nil =>
      obtain ⟨rfl, rfl⟩ := Prod.mk.inj (Except.ok.inj h)
      rfl
  | cons l ls ih =>
      obtain ⟨b, t, bs', hl, hls, rfl⟩ := run_cons_eq_ok.mp h
      exact run_append_eq_ok.mpr ⟨b, t, bs'.flatten, hl, ih hls, rfl⟩

/-- Inputs that carry more than the machine reads. -/
theorem run_comap {γ : Type*} (f : γ → α) (s : σ) (cs : List γ) :
    run (fun s c ↦ step s (f c)) s cs = run step s (cs.map f) := by
  induction cs generalizing s with
  | nil => rfl
  | cons c cs ih =>
      rw [List.map_cons, run, run]
      simp only [ih]

/-- The invariant rule.  The invariant may speak of the inputs consumed and the
outputs produced so far; if every step succeeds from it, so does the run. -/
theorem run_inv (step : σ → α → Except ε (β × σ)) (s : σ) (as : List α)
    (P : List α → List β → σ → Prop) (h₀ : P [] [] s)
    (hstep : ∀ pre a bs t, (∃ post, pre ++ a :: post = as) → P pre bs t →
      ∃ b t', step t a = .ok (b, t') ∧ P (pre ++ [a]) (bs ++ [b]) t') :
    ∃ bs s', run step s as = .ok (bs, s') ∧ P as bs s' := by
  suffices h : ∀ post pre bs t, pre ++ post = as → P pre bs t →
      ∃ bs' s', run step t post = .ok (bs', s') ∧ P as (bs ++ bs') s' by
    simpa using h as [] [] s rfl h₀
  intro post
  induction post with
  | nil =>
      intro pre bs t hpre hP
      refine ⟨[], t, rfl, ?_⟩
      rw [List.append_nil] at hpre ⊢
      exact hpre ▸ hP
  | cons a post ih =>
      intro pre bs t hpre hP
      obtain ⟨b, t', hb, hP'⟩ := hstep pre a bs t ⟨post, hpre⟩ hP
      obtain ⟨bs', s', hrun, hP''⟩ := ih (pre ++ [a]) (bs ++ [b]) t' (by simpa using hpre) hP'
      refine ⟨b :: bs', s', run_cons_eq_ok.mpr ⟨b, t', bs', hb, hrun, rfl⟩, ?_⟩
      simpa using hP''

/-- The invariant rule for a run that is known to succeed. -/
theorem inv_of_run {s s' : σ} {as : List α} {bs : List β} {P : List α → σ → Prop} (h₀ : P [] s)
    (hstep : ∀ pre a t b t', (∃ post, pre ++ a :: post = as) → P pre t → step t a = .ok (b, t') →
      P (pre ++ [a]) t') (hrun : run step s as = .ok (bs, s')) : P as s' := by
  suffices h : ∀ post pre t bs, pre ++ post = as → P pre t → run step t post = .ok (bs, s') →
      P as s' from h as [] s bs rfl h₀ hrun
  intro post
  induction post with
  | nil =>
      intro pre t bs hpre hP hrun
      obtain ⟨-, rfl⟩ := Prod.mk.inj (Except.ok.inj hrun)
      rw [List.append_nil] at hpre
      exact hpre ▸ hP
  | cons a post ih =>
      intro pre t bs hpre hP hrun
      obtain ⟨b, t', bs', hb, hrun', -⟩ := run_cons_eq_ok.mp hrun
      exact ih (pre ++ [a]) t' bs' (by simpa using hpre) (hstep pre a t b t' ⟨post, hpre⟩ hP hb)
        hrun'

/-! ## Simulation -/

/-- Two results agree: the same failure, or the same output with related states. -/
def Agree {τ : Type u} (R : σ → τ → Prop) : Except ε (β × σ) → Except ε (β × τ) → Prop
  | .ok (b, s), .ok (b', t) => b = b' ∧ R s t
  | .error e, .error e' => e = e'
  | _, _ => False

section Agree

variable {τ : Type u} {R : σ → τ → Prop}

theorem Agree.of_ok {x : Except ε (β × σ)} {b : β} {t : τ} (h : Agree R x (.ok (b, t))) :
    ∃ s, x = .ok (b, s) ∧ R s t := by
  match x, h with
  | .ok (_, s), ⟨rfl, hR⟩ => exact ⟨s, rfl, hR⟩

theorem Agree.to_ok {b : β} {s : σ} {y : Except ε (β × τ)} (h : Agree R (.ok (b, s)) y) :
    ∃ t, y = .ok (b, t) ∧ R s t := by
  match y, h with
  | .ok (_, t), ⟨rfl, hR⟩ => exact ⟨t, rfl, hR⟩

/-- Results that agree may be continued alike. -/
theorem Agree.bind {σ' τ' β' : Type u} {R' : σ' → τ' → Prop} {x : Except ε (β × σ)}
    {y : Except ε (β × τ)} {f : β × σ → Except ε (β' × σ')} {g : β × τ → Except ε (β' × τ')}
    (h : Agree R x y)
    (hfg : ∀ b s t, x = .ok (b, s) → R s t → Agree R' (f (b, s)) (g (b, t))) :
    Agree R' (x >>= f) (y >>= g) := by
  match x, y, h with
  | .error e, .error _, rfl => exact rfl
  | .ok (b, s), .ok (_, t), ⟨rfl, hR⟩ => exact hfg b s t rfl hR

/-- What is read from the output alone is the same. -/
theorem Agree.bind_eq {γ : Type u} {x : Except ε (β × σ)} {y : Except ε (β × τ)} (h : Agree R x y)
    (f : β → Except ε γ) : (x >>= fun r ↦ f r.1) = (y >>= fun r ↦ f r.1) := by
  match x, y, h with
  | .error e, .error _, rfl => rfl
  | .ok (b, s), .ok (_, t), ⟨rfl, _⟩ => rfl

/-- A step-by-step simulation is a simulation of runs.  `f` translates the inputs. -/
theorem run_agree {γ : Type*} {step₁ : σ → α → Except ε (β × σ)}
    {step₂ : τ → γ → Except ε (β × τ)} {f : γ → α} {C : γ → Prop}
    (hstep : ∀ s t c, C c → R s t → Agree R (step₁ s (f c)) (step₂ t c)) (cs : List γ)
    (hC : ∀ c ∈ cs, C c) {s : σ} {t : τ} (h : R s t) :
    Agree R (run step₁ s (cs.map f)) (run step₂ t cs) := by
  induction cs generalizing s t with
  | nil => exact ⟨rfl, h⟩
  | cons c cs ih =>
      have hc := hstep s t c (hC c List.mem_cons_self) h
      rw [List.map_cons, run, run]
      match step₁ s (f c), step₂ t c, hc with
      | .error e, .error _, rfl => exact rfl
      | .ok (b, s'), .ok (_, t'), ⟨rfl, h'⟩ =>
          have hrest := ih (fun c hc ↦ hC c (List.mem_cons_of_mem _ hc)) h'
          simp only [ok_bind]
          match run step₁ s' (cs.map f), run step₂ t' cs, hrest with
          | .error e, .error _, rfl => exact rfl
          | .ok (bs, s''), .ok (_, t''), ⟨rfl, h''⟩ => exact ⟨rfl, h''⟩

end Agree

/-! ## Conditions along a run -/

/-- Every step of the run is taken in a state and with an input that meet `C`. -/
def Along (step : σ → α → Except ε (β × σ)) (C : σ → α → Prop) : σ → List α → Prop
  | _, [] => True
  | s, a :: as => C s a ∧ ∀ b t, step s a = .ok (b, t) → Along step C t as

section Along

variable {C : σ → α → Prop}

/-- Whether a condition holds along a run can be computed by running. -/
instance decidableAlong [∀ s a, Decidable (C s a)] :
    ∀ (s : σ) (as : List α), Decidable (Along step C s as)
  | _, [] => isTrue trivial
  | s, a :: as =>
      match h : step s a with
      | .error _ => decidable_of_iff (C s a)
          ⟨fun hC ↦ ⟨hC, fun b t hb ↦ by rw [h] at hb; cases hb⟩, And.left⟩
      | .ok (b, t) =>
          have := decidableAlong t as
          decidable_of_iff (C s a ∧ Along step C t as)
            ⟨fun hC ↦ ⟨hC.1, fun b' t' hb ↦ by rw [h] at hb; cases hb; exact hC.2⟩,
              fun hC ↦ ⟨hC.1, hC.2 b t h⟩⟩

theorem along_append {s : σ} {as as' : List α} : Along step C s (as ++ as') ↔
    Along step C s as ∧ ∀ bs t, run step s as = .ok (bs, t) → Along step C t as' := by
  induction as generalizing s with
  | nil => simp [Along]
  | cons a as ih =>
      simp only [List.cons_append, Along, ih]
      constructor
      · rintro ⟨hC, h⟩
        refine ⟨⟨hC, fun b t hb ↦ (h b t hb).1⟩, fun bs t hrun ↦ ?_⟩
        obtain ⟨b, t', bs', hb, hrun', rfl⟩ := run_cons_eq_ok.mp hrun
        exact (h b t' hb).2 bs' t hrun'
      · rintro ⟨⟨hC, h⟩, h'⟩
        refine ⟨hC, fun b t hb ↦ ⟨h b t hb, fun bs t' hrun ↦ ?_⟩⟩
        exact h' (b :: bs) t' (run_cons_eq_ok.mpr ⟨b, t, bs, hb, hrun, rfl⟩)

/-- A condition along a run that follows from two others. -/
theorem Along.combine {C' D : σ → α → Prop} {s : σ} {as : List α} (h : Along step C s as)
    (h' : Along step C' s as) (himp : ∀ t a, C t a → C' t a → D t a) : Along step D s as := by
  induction as generalizing s with
  | nil => trivial
  | cons a as ih => exact ⟨himp s a h.1 h'.1, fun b t hb ↦ ih (h.2 b t hb) (h'.2 b t hb)⟩

/-- A condition along a run that follows from another one and an invariant. -/
theorem Along.imp_of_inv {D : σ → α → Prop} {s : σ} {as : List α} (h : Along step C s as)
    (P : List α → σ → Prop) (h₀ : P [] s) (hCD : ∀ pre a t, P pre t → C t a → D t a)
    (hstep : ∀ pre a t b t', P pre t → C t a → step t a = .ok (b, t') → P (pre ++ [a]) t') :
    Along step D s as := by
  suffices hD : ∀ post pre t, P pre t → Along step C t post → Along step D t post from
    hD as [] s h₀ h
  intro post
  induction post with
  | nil => exact fun _ _ _ _ ↦ trivial
  | cons a post ih =>
      rintro pre t hP ⟨hC, hrest⟩
      exact ⟨hCD pre a t hP hC, fun b t' hb ↦
        ih (pre ++ [a]) t' (hstep pre a t b t' hP hC hb) (hrest b t' hb)⟩

/-- An invariant that gives the condition gives it along the run. -/
theorem along_of_inv {P : List α → σ → Prop} {s : σ} {as : List α} (h₀ : P [] s)
    (hC : ∀ pre a t, (∃ post, pre ++ a :: post = as) → P pre t → C t a)
    (hstep : ∀ pre a t b t', (∃ post, pre ++ a :: post = as) → P pre t → step t a = .ok (b, t') →
      P (pre ++ [a]) t') : Along step C s as := by
  suffices h : ∀ post pre t, pre ++ post = as → P pre t → Along step C t post from h as [] s rfl h₀
  intro post
  induction post with
  | nil => exact fun _ _ _ _ ↦ trivial
  | cons a post ih =>
      intro pre t hpre hP
      refine ⟨hC pre a t ⟨post, hpre⟩ hP, fun b t' hb ↦ ?_⟩
      exact ih (pre ++ [a]) t' (by simpa using hpre) (hstep pre a t b t' ⟨post, hpre⟩ hP hb)

/-- The invariant rule for a run along which a condition holds. -/
theorem run_inv_of_along {s : σ} {as : List α} (halong : Along step C s as)
    (P : List α → List β → σ → Prop) (h₀ : P [] [] s)
    (hstep : ∀ pre a bs t, (∃ post, pre ++ a :: post = as) → P pre bs t → C t a →
      ∃ b t', step t a = .ok (b, t') ∧ P (pre ++ [a]) (bs ++ [b]) t') :
    ∃ bs s', run step s as = .ok (bs, s') ∧ P as bs s' := by
  obtain ⟨bs, s', hrun, hP, -⟩ := run_inv step s as
    (fun pre bs t ↦ P pre bs t ∧ ∀ post, pre ++ post = as → Along step C t post)
    ⟨h₀, fun post hpost ↦ by rwa [← hpost] at halong⟩ (by
      rintro pre a bs t ⟨post, hpost⟩ ⟨hP, hC⟩
      obtain ⟨hCa, hrest⟩ := hC _ hpost
      obtain ⟨b, t', hb, hP'⟩ := hstep pre a bs t ⟨post, hpost⟩ hP hCa
      refine ⟨b, t', hb, hP', fun post' hpost' ↦ ?_⟩
      have hpp : post' = post := by
        rw [← hpost, List.append_assoc, List.append_cancel_left_eq] at hpost'
        exact (List.cons.inj hpost').2
      exact hpp ▸ hrest b t' hb)
  exact ⟨bs, s', hrun, hP⟩

/-- A condition along a run that is simulated by another one. -/
theorem along_of_agree {τ : Type u} {R : σ → τ → Prop} {γ : Type*}
    {step₁ : σ → α → Except ε (β × σ)} {step₂ : τ → γ → Except ε (β × τ)} {f : γ → α}
    {D : γ → Prop} (hstep : ∀ s t c, D c → R s t → Agree R (step₁ s (f c)) (step₂ t c))
    (cs : List γ) (hD : ∀ c ∈ cs, D c) {s₀ : σ} {t₀ : τ} (h₀ : R s₀ t₀)
    (hC : ∀ pre c s t bs, (∃ post, pre ++ c :: post = cs) → run step₂ t₀ pre = .ok (bs, t) →
      R s t → C s (f c)) : Along step₁ C s₀ (cs.map f) := by
  suffices h : ∀ post pre s t bs, pre ++ post = cs → run step₂ t₀ pre = .ok (bs, t) → R s t →
      Along step₁ C s (post.map f) from h cs [] s₀ t₀ [] rfl rfl h₀
  intro post
  induction post with
  | nil => exact fun _ _ _ _ _ _ _ ↦ trivial
  | cons c post ih =>
      intro pre s t bs hpre hrun hR
      refine ⟨hC pre c s t bs ⟨post, hpre⟩ hrun hR, fun b s' hb ↦ ?_⟩
      have hagree := hstep s t c (hD c (by rw [← hpre]; simp)) hR
      rw [hb] at hagree
      obtain ⟨t', ht', hR'⟩ := hagree.to_ok
      refine ih (pre ++ [c]) s' t' (bs ++ [b]) (by simpa using hpre) ?_ hR'
      exact run_append_eq_ok.mpr
        ⟨bs, t, [b], hrun, run_cons_eq_ok.mpr ⟨b, t', [], ht', rfl, rfl⟩, rfl⟩

end Along

/-! ## Observations -/

/-- What is observed along a run, of each step in the state in which it is taken. -/
def observe {γ : Type*} (step : σ → α → Except ε (β × σ)) (f : σ → α → List γ) :
    σ → List α → List γ
  | _, [] => []
  | s, a :: as => f s a ++
      match step s a with
      | .ok (_, t) => observe step f t as
      | .error _ => []

theorem observe_cons {γ : Type*} {f : σ → α → List γ} {s t : σ} {a : α} {b : β}
    (h : step s a = .ok (b, t)) (as : List α) :
    observe step f s (a :: as) = f s a ++ observe step f t as := by
  rw [observe, h]

/-! ## Machines that do not fail -/

/-- Every input of the run meets `C` in the state in which it comes. -/
def AlongFold {σ α : Type*} (step : σ → α → σ) (C : σ → α → Prop) : σ → List α → Prop
  | _, [] => True
  | s, a :: as => C s a ∧ AlongFold step C (step s a) as

instance decidableAlongFold {σ α : Type*} {step : σ → α → σ} {C : σ → α → Prop}
    [∀ s a, Decidable (C s a)] : ∀ (s : σ) (as : List α), Decidable (AlongFold step C s as)
  | _, [] => isTrue trivial
  | s, a :: as =>
      have : Decidable (AlongFold step C (step s a) as) := decidableAlongFold (step s a) as
      inferInstanceAs (Decidable (C s a ∧ AlongFold step C (step s a) as))

/-- The invariant rule for a machine that does not fail. -/
theorem AlongFold.inv {σ α : Type*} {step : σ → α → σ} {C : σ → α → Prop} {P : σ → Prop}
    (hstep : ∀ s a, P s → C s a → P (step s a)) {s : σ} (hs : P s) {as : List α}
    (h : AlongFold step C s as) : P (as.foldl step s) := by
  induction as generalizing s with
  | nil => exact hs
  | cons a as ih => exact ih (hstep s a hs h.1) h.2

/-- A property that a step keeps exactly when it meets `C` holds in every state of a run exactly
when all of its steps do. -/
theorem forall_state_iff {σ α : Type*} {step : σ → α → σ} {C : σ → α → Prop} {I P : σ → Prop}
    (hI : ∀ s a, I s → I (step s a)) (hstep : ∀ s a, I s → P s → (P (step s a) ↔ C s a)) {s : σ}
    (hs : I s) (hP : P s) (as : List α) :
    (∀ pre, pre <+: as → P (pre.foldl step s)) ↔ AlongFold step C s as := by
  induction as generalizing s with
  | nil =>
      refine ⟨fun _ ↦ trivial, fun _ pre hpre ↦ ?_⟩
      rw [List.prefix_nil.mp hpre]
      exact hP
  | cons a as ih =>
      constructor
      · intro h
        have ha : P (step s a) := h [a] ⟨as, rfl⟩
        refine ⟨(hstep s a hs hP).mp ha, (ih (hI s a hs) ha).mp fun pre hpre ↦ ?_⟩
        exact h (a :: pre) ((List.prefix_cons_inj a).mpr hpre)
      · rintro ⟨hC, hrest⟩ pre hpre
        have ha : P (step s a) := (hstep s a hs hP).mpr hC
        rcases List.prefix_cons_iff.mp hpre with rfl | ⟨rest, rfl, hrest'⟩
        · exact hP
        · exact (ih (hI s a hs) ha).mpr hrest rest hrest'

end Run
