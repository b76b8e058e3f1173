import Mathlib.Data.Nat.Basic
import Mathlib.Data.Sum.Basic

/-!
# Loops with a measure

One turn of a loop goes on with another state or ends with a result. The number of
turns is given beforehand; a loop whose turns lower a measure ends within it, and
its result then does not depend on the number.
-/

set_option autoImplicit false

namespace WdHttp.MeasuredLoop

variable {α β : Type*}

def iter (turn : α → α ⊕ β) : ℕ → α → Option β
  | 0, _ => none
  | n+1, a =>
    match turn a with
    | .inl a' => iter turn n a'
    | .inr b => some b

/-- The loop with as many turns as its measure allows. -/
def runs (turn : α → α ⊕ β) (μ : α → ℕ) (a : α) : Option β := iter turn (μ a+1) a

variable {turn : α → α ⊕ β} {μ : α → ℕ}

theorem iter_inl {a a' : α} (n : ℕ) (h : turn a = .inl a') :
    iter turn (n+1) a = iter turn n a' := by
  rw [iter, h]

theorem iter_inr {a : α} {b : β} (n : ℕ) (h : turn a = .inr b) : iter turn (n+1) a = some b := by
  rw [iter, h]

/-- Enough turns give a result, always the same. -/
theorem iter_enough (hμ : ∀ a a', turn a = .inl a' → μ a' < μ a) (a : α) (n m : ℕ)
    (hn : μ a < n) (hm : μ a < m) :
    iter turn n a = iter turn m a ∧ ∃ b, iter turn n a = some b := by
  induction n generalizing a m with
  | zero => omega
  | succ n ih =>
    obtain ⟨m,rfl⟩ : ∃ k, m = k+1 := ⟨m-1,by omega⟩
    cases h : turn a with
    | inl a' =>
      have hlt := hμ a a' h
      rw [iter_inl n h, iter_inl m h]
      exact ih a' m (by omega) (by omega)
    | inr b =>
      rw [iter_inr n h, iter_inr m h]
      exact ⟨rfl,b,rfl⟩

theorem runs_inl (hμ : ∀ a a', turn a = .inl a' → μ a' < μ a) {a a' : α} (h : turn a = .inl a') :
    runs turn μ a = runs turn μ a' := by
  have hlt := hμ a a' h
  rw [runs, iter_inl _ h]
  exact (iter_enough hμ a' (μ a) (μ a'+1) hlt (Nat.lt_succ_self _)).1

theorem runs_inr {a : α} {b : β} (h : turn a = .inr b) : runs turn μ a = some b := iter_inr _ h

/-- What holds at every turn and gives the result its property. -/
theorem runs_rule (hμ : ∀ a a', turn a = .inl a' → μ a' < μ a) (P : α → Prop) (Q : β → Prop)
    (hstep : ∀ a a', P a → turn a = .inl a' → P a')
    (hdone : ∀ a b, P a → turn a = .inr b → Q b) (a : α) (ha : P a) :
    ∃ b, runs turn μ a = some b ∧ Q b := by
  suffices h : ∀ n a, μ a < n → P a → ∃ b, runs turn μ a = some b ∧ Q b from
    h (μ a+1) a (Nat.lt_succ_self _) ha
  intro n
  induction n with
  | zero => intro a hn; omega
  | succ n ih =>
    intro a hn ha
    cases h : turn a with
    | inl a' =>
      have hlt := hμ a a' h
      rw [runs_inl hμ h]
      exact ih a' (by omega) (hstep a a' ha h)
    | inr b => exact ⟨b,runs_inr h,hdone a b ha h⟩

end WdHttp.MeasuredLoop
