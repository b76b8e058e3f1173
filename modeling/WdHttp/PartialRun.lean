import Mathlib.Data.List.Basic
import Mathlib.Data.Option.Basic

/-!
# Finite runs of partial labelled steps

A system is a partial function from a state and a label to the next state.
Every choice of the environment is part of the label, so a list of labels
fixes a run. The rules below carry an invariant, a guarded invariant, an erasure
and a simulation from one step to a whole run.
-/

set_option autoImplicit false

namespace WdHttp.PartialRun

variable {σ ε : Type*}

def run (step : σ → ε → Option σ) : σ → List ε → Option σ
  | s, [] => some s
  | s, e::es => (step s e).bind fun t => run step t es

/-- The condition holds at every step the run actually takes, of the label
and of the state before it. -/
def Along (step : σ → ε → Option σ) (G : σ → ε → Prop) : σ → List ε → Prop
  | _, [] => True
  | s, e::es => G s e ∧ ∀ t ∈ step s e, Along step G t es

instance decidableAlong (step : σ → ε → Option σ) (G : σ → ε → Prop)
    [∀ s e, Decidable (G s e)] : ∀ s es, Decidable (Along step G s es)
  | _, [] => inferInstanceAs (Decidable True)
  | s, e::es =>
    have := fun t => decidableAlong step G t es
    inferInstanceAs (Decidable (G s e ∧ ∀ t ∈ step s e, Along step G t es))

variable {step : σ → ε → Option σ}

@[simp] theorem run_nil (s : σ) : run step s [] = some s := rfl

theorem run_cons_iff (s t : σ) (e : ε) (es : List ε) :
    run step s (e::es) = some t ↔ ∃ m, step s e = some m ∧ run step m es = some t := by
  simp [run, Option.bind_eq_some_iff]

theorem run_append (s : σ) (es fs : List ε) :
    run step s (es++fs) = (run step s es).bind fun t => run step t fs := by
  induction es generalizing s with
  | nil => rfl
  | cons e es ih =>
    cases h : step s e with
    | none => simp [run, h]
    | some m => simpa [run, h] using ih m

theorem run_append_iff (s t : σ) (es fs : List ε) :
    run step s (es++fs) = some t ↔ ∃ m, run step s es = some m ∧ run step m fs = some t := by
  rw [run_append, Option.bind_eq_some_iff]

theorem run_snoc_iff (s t : σ) (es : List ε) (e : ε) :
    run step s (es++[e]) = some t ↔ ∃ m, run step s es = some m ∧ step m e = some t := by
  simp [run_append_iff, run]

/-- A property kept by every guarded step holds at the end of every run
whose steps all meet the guard. -/
theorem along_invariant {G : σ → ε → Prop} (P : σ → Prop)
    (hstep : ∀ s e t, P s → G s e → step s e = some t → P t)
    (s t : σ) (es : List ε) (hs : P s) (hg : Along step G s es)
    (hr : run step s es = some t) : P t := by
  induction es generalizing s with
  | nil => cases hr; exact hs
  | cons e es ih =>
    obtain ⟨m,hm,hr⟩ := (run_cons_iff s t e es).mp hr
    exact ih m (hstep s e m hs hg.1 hm) (hg.2 m hm) hr

theorem along_true (s : σ) (es : List ε) : Along step (fun _ _ => True) s es := by
  induction es generalizing s with
  | nil => trivial
  | cons e es ih => exact ⟨trivial,fun t _ => ih t⟩

theorem run_invariant (P : σ → Prop)
    (hstep : ∀ s e t, P s → step s e = some t → P t)
    (s t : σ) (es : List ε) (hs : P s) (hr : run step s es = some t) : P t :=
  along_invariant P (fun s e t h _ => hstep s e t h) s t es hs (along_true s es) hr

/-- Where only the label decides whether a step fails, a run fails at the first bad label. -/
theorem run_eq_none_iff (P : σ → Prop) (F G : ε → Prop)
    (hstep : ∀ s e t, P s → G e → step s e = some t → P t)
    (hfail : ∀ s e, P s → G e → (step s e = none ↔ F e)) (s : σ) (es : List ε) (hs : P s)
    (hg : ∀ e ∈ es, G e) : run step s es = none ↔ ∃ e ∈ es, F e := by
  induction es generalizing s with
  | nil => simp [run]
  | cons e es ih =>
    obtain ⟨he,hg⟩ := List.forall_mem_cons.mp hg
    rw [run, List.exists_mem_cons_iff, ← hfail s e hs he]
    cases h : step s e with
    | none => simp
    | some t => simpa using ih t (hstep s e t hs he h) hg

theorem along_of_forall {G : σ → ε → Prop} (s : σ) (es : List ε)
    (h : ∀ e ∈ es, ∀ s, G s e) : Along step G s es := by
  induction es generalizing s with
  | nil => trivial
  | cons e es ih =>
    exact ⟨h e (by simp) s,fun t _ => ih t (fun e' he => h e' (by simp [he]))⟩

theorem along_mono {G H : σ → ε → Prop} (hGH : ∀ s e, G s e → H s e) (s : σ) (es : List ε)
    (h : Along step G s es) : Along step H s es := by
  induction es generalizing s with
  | nil => trivial
  | cons e es ih => exact ⟨hGH s e h.1,fun t ht => ih t (h.2 t ht)⟩

theorem along_and {G H : σ → ε → Prop} (s : σ) (es : List ε)
    (hg : Along step G s es) (hh : Along step H s es) :
    Along step (fun s e => G s e ∧ H s e) s es := by
  induction es generalizing s with
  | nil => trivial
  | cons e es ih => exact ⟨⟨hg.1,hh.1⟩,fun t ht => ih t (hg.2 t ht) (hh.2 t ht)⟩

/-- An invariant may mention the labels used so far. The step hypothesis
extends the history by one label at its end. -/
theorem history_invariant {G : σ → ε → Prop} (P : List ε → σ → Prop)
    (hstep : ∀ hist s e t, P hist s → G s e → step s e = some t → P (hist++[e]) t)
    (s t : σ) (es : List ε) (hs : P [] s) (hg : Along step G s es)
    (hr : run step s es = some t) : P es t := by
  suffices h : ∀ hist s es, P hist s → Along step G s es → run step s es = some t →
      P (hist++es) t by
    simpa using h [] s es hs hg hr
  clear hs hg hr
  intro hist s es
  induction es generalizing hist s with
  | nil =>
    intro hs _ hr
    cases hr
    simpa using hs
  | cons e es ih =>
    intro hs hg hr
    obtain ⟨m,hm,hr⟩ := (run_cons_iff s t e es).mp hr
    simpa using ih (hist++[e]) m (hstep hist s e m hs hg.1 hm) (hg.2 m hm) hr

/-- The last label of a kind in a history. -/
def IsLast (P : ε → Prop) (es : List ε) (e : ε) : Prop :=
  ∃ es₁ es₂, es = es₁ ++ e::es₂ ∧ P e ∧ ∀ e' ∈ es₂, ¬ P e'

theorem IsLast.mem {P : ε → Prop} {es : List ε} {e : ε} (h : IsLast P es e) : e ∈ es := by
  obtain ⟨es₁,es₂,rfl,-,-⟩ := h
  simp

theorem isLast_congr {P Q : ε → Prop} {es : List ε} (h : ∀ e ∈ es, P e ↔ Q e) (e : ε) :
    IsLast P es e ↔ IsLast Q es e := by
  constructor
  · rintro ⟨es₁,es₂,rfl,hP,hno⟩
    exact ⟨es₁,es₂,rfl,(h e (by simp)).mp hP,
      fun e' he hQ => hno e' he ((h e' (by simp [he])).mpr hQ)⟩
  · rintro ⟨es₁,es₂,rfl,hQ,hno⟩
    exact ⟨es₁,es₂,rfl,(h e (by simp)).mpr hQ,
      fun e' he hP => hno e' he ((h e' (by simp [he])).mp hP)⟩

theorem isLast_snoc_self {P : ε → Prop} (es : List ε) (e e' : ε) (h : P e') :
    IsLast P (es++[e']) e ↔ e = e' := by
  constructor
  · rintro ⟨es₁,es₂,he,-,hno⟩
    rcases List.eq_nil_or_concat es₂ with rfl | ⟨es₃,d,rfl⟩
    · exact (List.append_singleton_inj.mp he).2.symm
    · rw [List.concat_eq_append, ← List.cons_append, ← List.append_assoc] at he
      obtain rfl := (List.append_singleton_inj.mp he).2
      exact absurd h (hno e' (by simp))
  · rintro rfl
    exact ⟨es,[],rfl,h,by simp⟩

theorem isLast_snoc_other {P : ε → Prop} (es : List ε) (e e' : ε) (h : ¬ P e') :
    IsLast P (es++[e']) e ↔ IsLast P es e := by
  constructor
  · rintro ⟨es₁,es₂,he,hP,hno⟩
    rcases List.eq_nil_or_concat es₂ with rfl | ⟨es₃,d,rfl⟩
    · obtain rfl := (List.append_singleton_inj.mp he).2
      exact absurd hP h
    · rw [List.concat_eq_append, ← List.cons_append, ← List.append_assoc] at he
      obtain ⟨rfl,rfl⟩ := List.append_singleton_inj.mp he
      exact ⟨es₁,es₃,rfl,hP,fun d hd => hno d (by simp [hd])⟩
  · rintro ⟨es₁,es₂,rfl,hP,hno⟩
    refine ⟨es₁,es₂++[e'],by simp,hP,fun d hd => ?_⟩
    rcases List.mem_append.mp hd with hd | hd
    · exact hno d hd
    · rw [List.mem_singleton.mp hd]
      exact h

/-- Deleting labels. A relation that every kept label carries across both
systems, and that every deleted label leaves alone, relates the ends of the
full run and of the reduced one; in particular the reduced run exists. -/
theorem erase_simulation {G : σ → ε → Prop} (keep : ε → Bool) (R : σ → σ → Prop)
    (hkeep : ∀ s e t s', keep e = true → G s e → R s s' → step s e = some t →
      ∃ t', step s' e = some t' ∧ R t t')
    (hdrop : ∀ s e t s', keep e = false → G s e → R s s' → step s e = some t → R t s')
    (s t s' : σ) (es : List ε) (hR : R s s') (hg : Along step G s es)
    (hr : run step s es = some t) :
    ∃ t', run step s' (es.filter keep) = some t' ∧ R t t' := by
  induction es generalizing s s' with
  | nil =>
    cases hr
    exact ⟨s',rfl,hR⟩
  | cons e es ih =>
    obtain ⟨m,hm,hr⟩ := (run_cons_iff s t e es).mp hr
    cases hk : keep e with
    | true =>
      obtain ⟨m',hm',hR'⟩ := hkeep s e m s' hk hg.1 hR hm
      obtain ⟨t',ht',hRt⟩ := ih m m' hR' (hg.2 m hm) hr
      refine ⟨t',?_,hRt⟩
      rw [List.filter_cons_of_pos hk]
      exact (run_cons_iff s' t' e _).mpr ⟨m',hm',ht'⟩
    | false =>
      rw [List.filter_cons_of_neg (by simp [hk])]
      exact ih m s' (hdrop s e m s' hk hg.1 hR hm) (hg.2 m hm) hr

/-- A run of a specification is a run of the system that each of its steps is met
by, as long as the system's steps meet the guard. -/
theorem simulation {τ : Type*} {step' : τ → ε → Option τ} {G : σ → ε → Prop} (R : σ → τ → Prop)
    (hstep : ∀ s s' e t', R s s' → G s e → step' s' e = some t' → ∃ t, step s e = some t ∧ R t t')
    (s : σ) (s' t' : τ) (es : List ε) (hR : R s s') (hg : Along step G s es)
    (hr : run step' s' es = some t') : ∃ t, run step s es = some t ∧ R t t' := by
  induction es generalizing s s' with
  | nil =>
    cases hr
    exact ⟨s,rfl,hR⟩
  | cons e es ih =>
    obtain ⟨m',hm',hr⟩ := (run_cons_iff s' t' e es).mp hr
    obtain ⟨m,hm,hRm⟩ := hstep s s' e m' hR hg.1 hm'
    obtain ⟨t,ht,hRt⟩ := ih m m' hRm (hg.2 m hm) hr
    exact ⟨t,(run_cons_iff s t e es).mpr ⟨m,hm,ht⟩,hRt⟩

theorem along_append_left {G : σ → ε → Prop} (s : σ) (es fs : List ε)
    (h : Along step G s (es++fs)) : Along step G s es := by
  induction es generalizing s with
  | nil => trivial
  | cons e es ih => exact ⟨h.1,fun t ht => ih t (h.2 t ht)⟩

end WdHttp.PartialRun
