import Mathlib.Data.List.Basic
import Mathlib.Data.Option.Basic

/-!
# A heap of arrays

Arrays live at addresses that are given out once. The cells of a new array have no
value until they are written. An access outside an array, to an array that was
freed or to a cell without a value has no result.
-/

set_option autoImplicit false

namespace WdHttp.ArrayHeap

variable {T : Type*}

abbrev Cells (T : Type*) := List (Option T)

/-- The arrays by address, without the freed ones. -/
abbrev Heap (T : Type*) := List (Option (Cells T))

def live (h : Heap T) (a : ℕ) : Option (Cells T) := h[a]?.join

def alloc (h : Heap T) (n : ℕ) : ℕ × Heap T := (h.length,h ++ [some (List.replicate n none)])

def read (h : Heap T) (a i : ℕ) : Option T := (live h a).bind fun cells => cells[i]?.join

def write (h : Heap T) (a i : ℕ) (x : T) : Option (Heap T) :=
  (live h a).bind fun cells =>
    if i < cells.length then some (h.set a (some (cells.set i (some x)))) else none

def free (h : Heap T) (a : ℕ) : Option (Heap T) := (live h a).map fun _ => h.set a none

/-- The cells from `i` on, one after another. -/
def copyFrom (src dst : ℕ) : ℕ → ℕ → Heap T → Option (Heap T)
  | 0, _, h => some h
  | n+1, i, h => do
    let x ← read h src i
    let h ← write h dst i x
    copyFrom src dst n (i+1) h

theorem live_lt (h : Heap T) (a : ℕ) (cells : Cells T) (ha : live h a = some cells) :
    a < h.length := by
  by_contra hn
  rw [live, List.getElem?_eq_none (by omega)] at ha
  cases ha

theorem live_set_self (h : Heap T) (a : ℕ) (o : Option (Cells T)) (ha : a < h.length) :
    live (h.set a o) a = o := by
  simp [live, ha]

theorem live_set_other (h : Heap T) (a b : ℕ) (o : Option (Cells T)) (hb : b ≠ a) :
    live (h.set a o) b = live h b := by
  simp [live, List.getElem?_set_ne hb.symm]

theorem live_alloc_self (h : Heap T) (n : ℕ) :
    live (alloc h n).2 (alloc h n).1 = some (List.replicate n none) := by
  simp [live, alloc]

theorem live_alloc_old (h : Heap T) (n b : ℕ) (cells : Cells T) (hb : live h b = some cells) :
    live (alloc h n).2 b = some cells ∧ b ≠ (alloc h n).1 := by
  have hlt := live_lt h b cells hb
  refine ⟨?_,Nat.ne_of_lt hlt⟩
  rw [live, alloc, List.getElem?_append_left hlt]
  exact hb

theorem read_eq (h : Heap T) (a i : ℕ) (cells : Cells T) (x : T) (ha : live h a = some cells)
    (hx : cells[i]? = some (some x)) : read h a i = some x := by
  simp [read, ha, hx]

theorem write_eq (h : Heap T) (a i : ℕ) (x : T) (cells : Cells T) (ha : live h a = some cells)
    (hi : i < cells.length) :
    ∃ h', write h a i x = some h' ∧ live h' a = some (cells.set i (some x)) ∧
      ∀ b, b ≠ a → live h' b = live h b := by
  refine ⟨h.set a (some (cells.set i (some x))),by simp [write, ha, hi],?_,?_⟩
  · exact live_set_self h a _ (live_lt h a cells ha)
  · exact fun b hb => live_set_other h a b _ hb

theorem free_eq (h : Heap T) (a : ℕ) (cells : Cells T) (ha : live h a = some cells) :
    ∃ h', free h a = some h' ∧ ∀ b, b ≠ a → live h' b = live h b :=
  ⟨h.set a none,by simp [free, ha],fun b hb => live_set_other h a b _ hb⟩

theorem take_set_snoc (cs : Cells T) (l : List T) (x : T) (n : ℕ) (hn : n < cs.length)
    (ht : cs.take n = l.map some) : (cs.set n (some x)).take (n+1) = (l++[x]).map some := by
  rw [List.take_add_one, List.take_set_of_le (Nat.le_refl _), ht, List.getElem?_set_self hn,
    List.map_append]
  rfl

theorem copyFrom_eq (src dst : ℕ) (hne : src ≠ dst) (done todo : List T) (h : Heap T)
    (cs cd : Cells T) (hs : live h src = some cs) (hd : live h dst = some cd)
    (hcs : cs.take (done++todo).length = (done++todo).map some)
    (hcd : cd.take done.length = done.map some) (hlen : (done++todo).length ≤ cd.length) :
    ∃ h' cd', copyFrom src dst todo.length done.length h = some h' ∧ live h' dst = some cd' ∧
      cd'.length = cd.length ∧ cd'.take (done++todo).length = (done++todo).map some ∧
      ∀ b, b ≠ dst → live h' b = live h b := by
  induction todo generalizing done h cd with
  | nil =>
    refine ⟨h,cd,rfl,hd,rfl,?_,fun _ _ => rfl⟩
    simpa using hcd
  | cons x todo ih =>
    have hcell : cs[done.length]? = some (some x) := by
      have hget := congrArg (fun l => l[done.length]?) hcs
      simpa using hget
    have hlt : done.length < cd.length := by
      rw [List.length_append, List.length_cons] at hlen
      omega
    obtain ⟨h₁,hw,hself,hother⟩ := write_eq h dst done.length x cd hd hlt
    have hs₁ : live h₁ src = some cs := (hother src hne).trans hs
    have happ : done ++ x::todo = (done++[x]) ++ todo := by simp
    have hfront : (cd.set done.length (some x)).take (done++[x]).length = (done++[x]).map some := by
      rw [List.length_append, List.length_singleton]
      exact take_set_snoc cd done x done.length hlt hcd
    rw [happ] at hcs hlen ⊢
    obtain ⟨h',cd',hc,hd',hl',ht',ho'⟩ := ih (done++[x]) h₁ (cd.set done.length (some x)) hs₁ hself
      hcs hfront (by rw [List.length_set]; exact hlen)
    refine ⟨h',cd',?_,hd',by rw [hl', List.length_set],ht',?_⟩
    · rw [List.length_append, List.length_singleton] at hc
      simp only [List.length_cons, copyFrom, read_eq h src _ cs x hs hcell, bind, Option.bind_some,
        hw]
      exact hc
    · intro b hb
      rw [ho' b hb, hother b hb]

end WdHttp.ArrayHeap
