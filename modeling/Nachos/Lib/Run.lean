import Mathlib.Data.List.Basic

/-! Finite runs of a machine whose step function can fail. A run is a list of
events together with the states it goes through; because the step is a
function, the events determine the states, so "every step of the run meets a
condition" and "every state of the run has a property" are recursive
predicates on the events alone. -/

namespace Nachos.Lib

section ExceptBind
variable {φ α β : Type}

theorem bind_eq_ok {x : Except φ α} {f : α → Except φ β} {b : β} :
    (x >>= f) = .ok b ↔ ∃ a, x = .ok a ∧ f a = .ok b := by
  cases x with
  | error e =>
    constructor
    · intro h; cases h
    · rintro ⟨_, h, _⟩; cases h
  | ok a =>
    constructor
    · intro h; exact ⟨a, rfl, h⟩
    · rintro ⟨_, h, hf⟩; cases h; exact hf

/-- The left unit law. It is stated through the lawful instance and not by
`rfl`, so that rewriting with it leaves no definitional check behind. -/
theorem ok_bind (a : α) (f : α → Except φ β) : (Except.ok a >>= f) = f a := pure_bind a f

theorem error_bind (e : φ) (f : α → Except φ β) : (Except.error e >>= f) = .error e := by
  cases h : (Except.error e >>= f) with
  | error e' => cases h; rfl
  | ok b => cases h

/-- How a concrete computation is evaluated. -/
theorem exists_ok_of_any {x : Except φ α} {p : α → Bool} (h : x.toOption.any p = true) :
    ∃ a, x = .ok a ∧ p a = true := by
  cases x with
  | error e => cases h
  | ok a => exact ⟨a, rfl, h⟩

theorem bind_ne_error {x : Except φ α} {f : α → Except φ β} {e : φ} (hx : x ≠ .error e)
    (hf : ∀ a, x = .ok a → f a ≠ .error e) : (x >>= f) ≠ .error e := by
  cases x with
  | error e' =>
    intro h
    cases h
    exact hx rfl
  | ok a => exact hf a rfl

theorem pure_eq_ok {a b : α} : (pure a : Except φ α) = .ok b ↔ a = b :=
  ⟨fun h => (Except.ok.inj h), fun h => congrArg _ h⟩

theorem ite_error_eq_ok {c : Prop} [Decidable c] {x : Except φ α} {e : φ} {a : α} :
    (if c then x else .error e) = .ok a ↔ c ∧ x = .ok a := by
  split <;> simp_all

theorem ite_error_left_eq_ok {c : Prop} [Decidable c] {x : Except φ α} {e : φ} {a : α} :
    (if c then .error e else x) = .ok a ↔ ¬ c ∧ x = .ok a := by
  split <;> simp_all

theorem ite_error_eq_error {c : Prop} [Decidable c] {a : α} {e f : φ}
    (h : (if c then Except.ok a else .error e) = .error f) : f = e := by
  split at h
  · cases h
  · cases h
    rfl

theorem bind_ok_eq_error {x : Except φ α} {g : α → β} {f : φ}
    (h : (x >>= fun a => .ok (g a)) = .error f) : x = .error f := by
  cases x with
  | error e =>
    cases h
    rfl
  | ok a => cases h

end ExceptBind

variable {σ ε φ : Type}

/-- `Run step s es t`: the events `es`, taken one after the other from `s`,
all succeed and end in `t`. -/
inductive Run (step : σ → ε → Except φ σ) : σ → List ε → σ → Prop
  | nil {s} : Run step s [] s
  | cons {s e s' es t} : step s e = .ok s' → Run step s' es t → Run step s (e :: es) t

/-- Every step of the run from `s` meets `G`, a condition on the state before
the step and the event. -/
def Guarded (step : σ → ε → Except φ σ) (G : σ → ε → Prop) : σ → List ε → Prop
  | _, [] => True
  | s, e :: es => G s e ∧ ∀ s', step s e = .ok s' → Guarded step G s' es

/-- Every state the run from `s` goes through, its first and last included,
has `P`. -/
def Always (step : σ → ε → Except φ σ) (P : σ → Prop) : σ → List ε → Prop
  | s, [] => P s
  | s, e :: es => P s ∧ ∀ s', step s e = .ok s' → Always step P s' es

variable {step : σ → ε → Except φ σ} {s t u : σ} {es fs : List ε}

theorem run_iff_foldlM : Run step s es t ↔ es.foldlM step s = .ok t := by
  induction es generalizing s with
  | nil =>
    simp only [List.foldlM_nil, pure_eq_ok]
    constructor
    · intro h; cases h; rfl
    · intro h; subst h; exact .nil
  | cons e es ih =>
    simp only [List.foldlM_cons, bind_eq_ok, ← ih]
    constructor
    · intro h
      cases h with
      | cons hs hr => exact ⟨_, hs, hr⟩
    · intro ⟨_, hs, hr⟩
      exact .cons hs hr

/-- The events can be taken from `s`, and end in a state with `p`: what a
concrete run is evaluated by. -/
def continues (step : σ → ε → Except φ σ) (s : σ) (es : List ε) (p : σ → Bool) : Bool :=
  match es.foldlM step s with
  | .error _ => false
  | .ok t => p t

theorem continues_iff {p : σ → Bool} :
    continues step s es p = true ↔ ∃ t, Run step s es t ∧ p t = true := by
  unfold continues
  constructor
  · intro h
    split at h
    · cases h
    · rename_i t hr
      exact ⟨t, run_iff_foldlM.mpr hr, h⟩
  · intro ⟨t, hr, hp⟩
    simp only [run_iff_foldlM.mp hr]
    exact hp

theorem run_singleton {e : ε} : Run step s [e] t ↔ step s e = .ok t := by
  constructor
  · intro h
    cases h with
    | cons hs hr => cases hr; exact hs
  · exact fun h => .cons h .nil

theorem Run.append (h : Run step s es t) (h' : Run step t fs u) : Run step s (es ++ fs) u := by
  induction h with
  | nil => exact h'
  | cons hs _ ih => exact .cons hs (ih h')

theorem Run.unique (h : Run step s es t) (h' : Run step s es u) : t = u := by
  rw [run_iff_foldlM] at h h'
  rw [h] at h'
  exact Except.ok.inj h'

/-- A predicate kept by every step that meets the guard holds at the end of
every guarded run. -/
theorem Run.guarded_inv {G : σ → ε → Prop} {I : σ → Prop}
    (hstep : ∀ s e s', I s → G s e → step s e = .ok s' → I s')
    (h : Run step s es t) (hg : Guarded step G s es) (h0 : I s) : I t := by
  induction h with
  | nil => exact h0
  | cons hs _ ih => exact ih (hg.2 _ hs) (hstep _ _ _ h0 hg.1 hs)

theorem Run.inv {I : σ → Prop} (hstep : ∀ s e s', I s → step s e = .ok s' → I s')
    (h : Run step s es t) (h0 : I s) : I t := by
  induction h with
  | nil => exact h0
  | cons hs _ ih => exact ih (hstep _ _ _ h0 hs)

/-- A predicate kept by every step that is not a `Q` holds to the end of the
run, or the run has a `Q` step. -/
theorem Run.until {I : σ → Prop} {Q : σ → ε → Prop}
    (hstep : ∀ s e s', I s → ¬ Q s e → step s e = .ok s' → I s')
    (h : Run step s es t) (h0 : I s) :
    I t ∨ ∃ es₁ e es₂ m, es = es₁ ++ e :: es₂ ∧ Run step s es₁ m ∧ Q m e := by
  induction h with
  | nil => exact .inl h0
  | @cons s e s' es t hs _ ih =>
    by_cases hQ : Q s e
    · exact .inr ⟨[], e, es, s, rfl, .nil, hQ⟩
    · rcases ih (hstep _ _ _ h0 hQ hs) with hI | ⟨es₁, e', es₂, m, rfl, hr, hQ'⟩
      · exact .inl hI
      · exact .inr ⟨e :: es₁, e', es₂, m, rfl, .cons hs hr, hQ'⟩

theorem Guarded.cons {G : σ → ε → Prop} {e : ε} (hs : step s e = .ok t) (hG : G s e)
    (hg : Guarded step G t es) : Guarded step G s (e :: es) := by
  refine ⟨hG, fun s' hs' => ?_⟩
  rw [hs] at hs'
  cases hs'
  exact hg

/-- A guard that looks at the events alone. -/
theorem Guarded.of_events {G : σ → ε → Prop} (h : ∀ e ∈ es, ∀ s, G s e) :
    Guarded step G s es := by
  induction es generalizing s with
  | nil => trivial
  | cons e es ih =>
    exact ⟨h e List.mem_cons_self s, fun _ _ => ih fun e he => h e (List.mem_cons_of_mem _ he)⟩

/-- A guard that can be evaluated, along a concrete run. -/
def guards (step : σ → ε → Except φ σ) (p : σ → ε → Bool) : σ → List ε → Bool
  | _, [] => true
  | s, e :: es =>
    p s e && match step s e with
      | .error _ => true
      | .ok s' => guards step p s' es

theorem guarded_of_guards {p : σ → ε → Bool} (h : guards step p s es = true) :
    Guarded step (fun s e => p s e = true) s es := by
  induction es generalizing s with
  | nil => trivial
  | cons e es ih =>
    obtain ⟨hp, hrest⟩ := Bool.and_eq_true_iff.mp h
    refine ⟨hp, fun s' hs => ih ?_⟩
    rw [hs] at hrest
    exact hrest

theorem Guarded.mono {G H : σ → ε → Prop} (hg : Guarded step G s es)
    (hGH : ∀ s e, G s e → H s e) : Guarded step H s es := by
  induction es generalizing s with
  | nil => trivial
  | cons e es ih => exact ⟨hGH s e hg.1, fun s' hs => ih (hg.2 s' hs)⟩

theorem Guarded.and {G H : σ → ε → Prop} (hg : Guarded step G s es) (hh : Guarded step H s es) :
    Guarded step (fun s e => G s e ∧ H s e) s es := by
  induction es generalizing s with
  | nil => trivial
  | cons e es ih => exact ⟨⟨hg.1, hh.1⟩, fun s' hs => ih (hg.2 s' hs) (hh.2 s' hs)⟩

theorem Guarded.append {G : σ → ε → Prop} (hg : Guarded step G s es)
    (hg' : ∀ t, Run step s es t → Guarded step G t fs) : Guarded step G s (es ++ fs) := by
  induction es generalizing s with
  | nil => exact hg' s .nil
  | cons e es ih => exact ⟨hg.1, fun s' hs => ih (hg.2 s' hs) fun t hr => hg' t (.cons hs hr)⟩

/-- The rest of a guarded run. -/
theorem Guarded.drop {G : σ → ε → Prop} (hg : Guarded step G s (es ++ fs))
    (h : Run step s es t) : Guarded step G t fs := by
  induction h with
  | nil => exact hg
  | cons hs _ ih => exact ih (hg.2 _ hs)

/-- What an invariant of guarded steps and the guard together imply of a step
holds of every step of a guarded run. -/
theorem Guarded.strengthen {G H : σ → ε → Prop} {I : σ → Prop}
    (hstep : ∀ s e s', I s → G s e → step s e = .ok s' → I s') (hH : ∀ s e, I s → G s e → H s e)
    (hg : Guarded step G s es) (h0 : I s) : Guarded step H s es := by
  induction es generalizing s with
  | nil => trivial
  | cons e es ih =>
    exact ⟨hH _ _ h0 hg.1, fun s' hs => ih (hg.2 s' hs) (hstep _ _ _ h0 hg.1 hs)⟩

/-- Along a guarded run an invariant of guarded steps holds in every state. -/
theorem Guarded.always {G : σ → ε → Prop} {I : σ → Prop}
    (hstep : ∀ s e s', I s → G s e → step s e = .ok s' → I s')
    (hg : Guarded step G s es) (h0 : I s) : Always step I s es := by
  induction es generalizing s with
  | nil => exact h0
  | cons e es ih => exact ⟨h0, fun s' hs => ih (hg.2 s' hs) (hstep _ _ _ h0 hg.1 hs)⟩

theorem Always.mono {P Q : σ → Prop} (h : Always step P s es) (hPQ : ∀ s, P s → Q s) :
    Always step Q s es := by
  induction es generalizing s with
  | nil => exact hPQ _ h
  | cons e es ih => exact ⟨hPQ _ h.1, fun s' hs => ih (h.2 s' hs)⟩

theorem Always.head {P : σ → Prop} (h : Always step P s es) : P s := by
  cases es with
  | nil => exact h
  | cons e es => exact h.1

/-- Where every step that breaks the guard also breaks `P`, a run all of whose
states have `P` is guarded. The invariant `I` is what is known of the states
the guarded part of the run goes through besides `P`. -/
theorem Always.guarded {G : σ → ε → Prop} {I P : σ → Prop}
    (hinv : ∀ s e s', I s → G s e → step s e = .ok s' → I s')
    (hbreak : ∀ s e s', I s → P s → step s e = .ok s' → ¬ G s e → ¬ P s')
    (hr : Run step s es t) (h0 : I s) (h : Always step P s es) : Guarded step G s es := by
  induction hr with
  | nil => trivial
  | @cons s e s' es t hs _ ih =>
    have hP' : P s' := (h.2 _ hs).head
    have hG : G s e := by
      by_contra hG
      exact hbreak _ _ _ h0 h.1 hs hG hP'
    refine ⟨hG, fun s'' hs'' => ?_⟩
    rw [hs] at hs''
    cases hs''
    exact ih (hinv _ _ _ h0 hG hs) (h.2 _ hs)

/-! ## Simulation -/

/-- What the events of a run from `s` are called elsewhere. -/
def labels {α : Type} (step : σ → ε → Except φ σ) (label : σ → ε → α) : σ → List ε → List α
  | _, [] => []
  | s, e :: es => label s e :: match step s e with
    | .ok s' => labels step label s' es
    | .error _ => []

/-- A machine whose every guarded step is a step of another, under the label of the
step, runs as the other does. -/
theorem Run.simulates {α τ ψ : Type} {step' : τ → α → Except ψ τ} {label : σ → ε → α}
    {G : σ → ε → Prop} {R : σ → τ → Prop}
    (hstep : ∀ s e s' w, R s w → G s e → step s e = .ok s' →
      ∃ w', step' w (label s e) = .ok w' ∧ R s' w')
    (h : Run step s es t) (hg : Guarded step G s es) {w : τ} (h0 : R s w) :
    ∃ w', Run step' w (labels step label s es) w' ∧ R t w' := by
  induction h generalizing w with
  | nil => exact ⟨w, .nil, h0⟩
  | @cons s e s' es t hs _ ih =>
    obtain ⟨w1, hw1, hR⟩ := hstep _ _ _ _ h0 hg.1 hs
    obtain ⟨w', hrun, hR'⟩ := ih (hg.2 _ hs) hR
    refine ⟨w', ?_, hR'⟩
    rw [labels, hs]
    exact .cons hw1 hrun

end Nachos.Lib
