import Mathlib.Data.List.Infix

/-!
# First occurrences

Where a pattern occurs first in a list. A pattern whose first element does not come
back in it cannot overlap with itself, so that a failed match can be given up as a whole.
-/

set_option autoImplicit false

namespace WdHttp.FirstOccurrence

variable {α : Type*}

theorem exists_first {d l : List α} (hd : d ≠ []) (h : d <:+: l) :
    ∃ c r, l = c ++ d ++ r ∧ ¬ d <:+: c := by
  induction l with
  | nil => exact absurd (List.infix_nil.mp h) hd
  | cons a l ih =>
    by_cases hp : d <+: a :: l
    · obtain ⟨r,hr⟩ := hp
      exact ⟨[],r,hr.symm,fun hc => hd (List.infix_nil.mp hc)⟩
    · obtain ⟨c,r,hl,hc⟩ := ih ((List.infix_cons_iff.mp h).resolve_left hp)
      refine ⟨a :: c,r,by rw [hl]; rfl,?_⟩
      intro hin
      rcases List.infix_cons_iff.mp hin with hpre | hin
      · apply hp
        rw [hl]
        exact hpre.trans ⟨d ++ r,by simp⟩
      · exact hc hin

section Unlike

variable {x : α} {d c r : List α}

theorem nil_of_prefix (hx : x ∉ d) (hc : ¬ (x :: d) <:+: c) (h : (x :: d) <+: c ++ (x :: d) ++ r) :
    c = [] := by
  cases c with
  | nil => rfl
  | cons a c =>
    obtain ⟨s,hs⟩ := h
    rw [List.append_assoc] at hs
    rcases List.append_eq_append_iff.mp hs with ⟨t,ht,-⟩ | ⟨t,ht,hpre⟩
    · exact absurd ⟨[],t,ht.symm⟩ hc
    · exfalso
      cases t with
      | nil =>
        apply hc
        rw [ht, List.append_nil]
      | cons y t =>
        obtain rfl : x = y := (List.cons.inj hpre).1
        apply hx
        rw [(List.cons.inj ht).2]
        exact List.mem_append_right _ List.mem_cons_self

/-- A begun match that fails belongs to what stands before the pattern. -/
theorem mismatch {n : ℕ} {b : α} {bs : List α} (hx : x ∉ d) (hn : 0 < n)
    (hb : (x :: d)[n]? ≠ some b) (hlen : n < (x :: d).length)
    (h : (x :: d).take n ++ b :: bs = c ++ (x :: d) ++ r) :
    ∃ c', c = (x :: d).take n ++ c' ∧ b :: bs = c' ++ (x :: d) ++ r := by
  rw [List.append_assoc] at h
  rcases List.append_eq_append_iff.mp h with ⟨c',hc,hbs⟩ | ⟨t,ht,hd⟩
  · exact ⟨c',hc,by rw [hbs, List.append_assoc]⟩
  · cases t with
    | nil =>
      rw [List.append_nil] at ht
      exact ⟨[],by rw [ht, List.append_nil],hd.symm⟩
    | cons y t =>
      exfalso
      obtain rfl : x = y := by
        rw [List.cons_append, List.cons_append] at hd
        exact (List.cons.inj hd).1
      cases c with
      | nil =>
        rw [List.nil_append] at ht
        apply hb
        have hlt : (x :: t).length = n := by
          rw [← ht]
          exact List.length_take_of_le (Nat.le_of_lt hlen)
        have hget := congrArg (fun l => l[n]?) hd
        simp only [List.getElem?_append_left hlen] at hget
        rw [hget, List.getElem?_append_right (Nat.le_of_eq hlt), hlt, Nat.sub_self]
        rfl
      | cons a c =>
        apply hx
        obtain ⟨m,rfl⟩ : ∃ m, n = m+1 := ⟨n-1,by omega⟩
        rw [List.take_succ_cons, List.cons_append] at ht
        have hmem : x ∈ d.take m := by
          rw [(List.cons.inj ht).2]
          exact List.mem_append_right _ List.mem_cons_self
        exact List.mem_of_mem_take hmem

end Unlike

end WdHttp.FirstOccurrence
