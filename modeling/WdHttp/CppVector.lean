import WdHttp.ArrayHeap
import WdHttp.PartialRun
import Mathlib.Data.Option.Defs
import Mathlib.Tactic.Linarith

/-!
# A vector and the list it stands for

The class `Vector` of `code/cpp/01.cc`. An object owns one array, of which it uses
the first `size` cells. The type of its elements stays open: `reserve` allocates an
array of `int`, so the class compiles for that type only, and nothing here depends
on it. A `size_t` is a natural number, with its products and sums reduced.
-/

set_option autoImplicit false

namespace WdHttp.CppVector
open WdHttp.ArrayHeap WdHttp.PartialRun

structure Vector where
  array : Option ℕ
  size : ℕ
  capacity : ℕ
  deriving DecidableEq, Repr

variable {T : Type}

/-- `std::copy` of the first cells; a null pointer has none. -/
def copyArray (h : Heap T) (src : Option ℕ) (dst n : ℕ) : Option (Heap T) :=
  match src with
  | none => if n = 0 then some h else none
  | some a => copyFrom a dst n 0 h

def deleteArray (h : Heap T) : Option ℕ → Option (Heap T)
  | none => some h
  | some a => free h a

def defaultConstruct : Vector := ⟨none,0,0⟩

def copyConstruct (h : Heap T) (other : Vector) : Option (Heap T × Vector) := do
  let (array,h) := alloc h other.capacity
  let h ← copyArray h other.array array other.size
  some (h,⟨some array,other.size,other.capacity⟩)

def reserve (h : Heap T) (v : Vector) (newCapacity : ℕ) : Option (Heap T × Vector) :=
  if newCapacity > v.capacity then do
    let (newArray,h) := alloc h newCapacity
    let h ← copyArray h v.array newArray v.size
    let h ← deleteArray h v.array
    some (h,{ v with array := some newArray, capacity := newCapacity })
  else some (h,v)

/-- The room made before a new element is stored. -/
def grow (h : Heap T) (v : Vector) : Option (Heap T × Vector) :=
  if v.size = v.capacity then
    if v.capacity = 0 then reserve h v 1 else reserve h v (v.capacity*2%2^64)
  else some (h,v)

def pushBack (h : Heap T) (v : Vector) (value : T) : Option (Heap T × Vector) := do
  let (h,v) ← grow h v
  let array ← v.array
  let h ← write h array v.size value
  some (h,{ v with size := (v.size+1)%2^64 })

def popBack (v : Vector) : Vector := if v.size > 0 then { v with size := v.size-1 } else v

inductive Output (T : Type) where
  | done
  | value (x : T)
  | threw
  deriving DecidableEq, Repr

inductive Op (T : Type) where
  | construct
  | copy (src : ℕ)
  | pushBack (id : ℕ) (x : T)
  | popBack (id : ℕ)
  | get (id pos : ℕ)
  | set (id pos : ℕ) (x : T)
  | destroy (id : ℕ)
  deriving DecidableEq, Repr

/-- The objects by the order of their construction. -/
structure World (T : Type) where
  heap : Heap T
  objects : ℕ → Option Vector
  born : ℕ
  outputs : List (Output T)

def World.put (w : World T) (h : Heap T) (id : ℕ) (v : Option Vector) (o : Output T) : World T :=
  { w with heap := h, objects := Function.update w.objects id v, outputs := w.outputs ++ [o] }

def World.create (w : World T) (h : Heap T) (v : Vector) : World T :=
  { w.put h w.born (some v) .done with born := w.born+1 }

def World.out (w : World T) (o : Output T) : World T := { w with outputs := w.outputs ++ [o] }

/-- Without a result where the object does not exist or the behaviour is undefined. -/
def step (w : World T) : Op T → Option (World T)
  | .construct => some (w.create w.heap defaultConstruct)
  | .copy src => do
    let other ← w.objects src
    let (h,v) ← copyConstruct w.heap other
    some (w.create h v)
  | .pushBack id x => do
    let v ← w.objects id
    let (h,v) ← pushBack w.heap v x
    some (w.put h id (some v) .done)
  | .popBack id => do
    let v ← w.objects id
    some (w.put w.heap id (some (popBack v)) .done)
  | .get id pos => do
    let v ← w.objects id
    if pos ≥ v.size then some (w.out .threw)
    else
      let array ← v.array
      let x ← read w.heap array pos
      some (w.out (.value x))
  | .set id pos x => do
    let v ← w.objects id
    if pos ≥ v.size then some (w.out .threw)
    else
      let array ← v.array
      let h ← write w.heap array pos x
      some (w.put h id (some v) .done)
  | .destroy id => do
    let v ← w.objects id
    let h ← deleteArray w.heap v.array
    some (w.put h id none .done)

def start : World T := ⟨[],fun _ => none,0,[]⟩

/-- Independent lists under the same operations. -/
structure Lists (T : Type) where
  lists : ℕ → Option (List T)
  born : ℕ
  outputs : List (Output T)

def Lists.put (ls : Lists T) (id : ℕ) (l : Option (List T)) (o : Output T) : Lists T :=
  { ls with lists := Function.update ls.lists id l, outputs := ls.outputs ++ [o] }

def Lists.create (ls : Lists T) (l : List T) : Lists T :=
  { ls.put ls.born (some l) .done with born := ls.born+1 }

def Lists.out (ls : Lists T) (o : Output T) : Lists T := { ls with outputs := ls.outputs ++ [o] }

def listStep (ls : Lists T) : Op T → Option (Lists T)
  | .construct => some (ls.create [])
  | .copy src => (ls.lists src).map ls.create
  | .pushBack id x => (ls.lists id).map fun l => ls.put id (some (l++[x])) .done
  | .popBack id => (ls.lists id).map fun l => ls.put id (some l.dropLast) .done
  | .get id pos => (ls.lists id).map fun l => ls.out ((l[pos]?).elim .threw .value)
  | .set id pos x => (ls.lists id).map fun l =>
    if pos < l.length then ls.put id (some (l.set pos x)) .done else ls.out .threw
  | .destroy id => (ls.lists id).map fun _ => ls.put id none .done

def startLists : Lists T := ⟨fun _ => none,0,[]⟩

/-- The object stands for the list: its first cells hold the elements, and its
capacity, nothing or a power of two, is the length of its array. -/
structure Holds (h : Heap T) (v : Vector) (l : List T) : Prop where
  size : v.size = l.length
  fits : v.size ≤ v.capacity
  power : v.capacity = 0 ∨ ∃ k, v.capacity = 2^k
  bounded : v.capacity < 2^64
  null : v.array = none → v.capacity = 0
  cells : ∀ a, v.array = some a →
    ∃ cs, live h a = some cs ∧ cs.length = v.capacity ∧ cs.take v.size = l.map some

/-- The arrays of other objects are as they were, and stay theirs. -/
def Leaves (h h' : Heap T) (v v' : Vector) : Prop :=
  ∀ b cs, live h b = some cs → v.array ≠ some b → live h' b = some cs ∧ v'.array ≠ some b

/-- One object after an operation on it. -/
structure Becomes (h h' : Heap T) (v v' : Vector) (l : List T) : Prop where
  holds : Holds h' v' l
  grows : v.capacity ≤ v'.capacity
  leaves : Leaves h h' v v'

section Object

variable {h : Heap T} {v : Vector} {l : List T}

theorem holds_nil (h : Heap T) : Holds h defaultConstruct [] :=
  ⟨rfl,le_rfl,Or.inl rfl,by simp [defaultConstruct],fun _ => rfl,fun _ ha => by cases ha⟩

theorem leaves_refl (h : Heap T) (v : Vector) : Leaves h h v v := fun _ _ hb hv => ⟨hb,hv⟩

theorem holds_frame (h' : Heap T) (hH : Holds h v l)
    (hl : ∀ a cs, v.array = some a → live h a = some cs → live h' a = some cs) : Holds h' v l := by
  refine ⟨hH.size,hH.fits,hH.power,hH.bounded,hH.null,fun a ha => ?_⟩
  obtain ⟨cs,hcs,hlen,htake⟩ := hH.cells a ha
  exact ⟨cs,hl a cs ha hcs,hlen,htake⟩

theorem holds_copy (hH : Holds h v l) (n : ℕ) (hn : v.size ≤ n) :
    ∃ h' cs, copyArray (alloc h n).2 v.array (alloc h n).1 v.size = some h' ∧
      live h' (alloc h n).1 = some cs ∧ cs.length = n ∧ cs.take v.size = l.map some ∧
      ∀ b cb, live h b = some cb → live h' b = some cb ∧ b ≠ (alloc h n).1 := by
  cases ha : v.array with
  | none =>
    have h0 : v.size = 0 := by
      have := hH.null ha
      have := hH.fits
      omega
    have hl : l = [] := List.length_eq_zero_iff.mp (by rw [← hH.size, h0])
    refine ⟨(alloc h n).2,_,by rw [copyArray, if_pos h0],live_alloc_self h n,
      List.length_replicate,by simp [h0, hl],?_⟩
    exact fun b cb hb => live_alloc_old h n b cb hb
  | some a =>
    obtain ⟨cs,hcs,-,htake⟩ := hH.cells a ha
    obtain ⟨hcs',hne⟩ := live_alloc_old h n a cs hcs
    rw [hH.size] at htake hn
    obtain ⟨h',cd,hcopy,hd,hlen,hfront,hother⟩ := copyFrom_eq a (alloc h n).1 hne [] l _ cs _ hcs'
      (live_alloc_self h n) htake rfl (by rw [List.length_replicate]; exact hn)
    refine ⟨h',cd,by rw [copyArray, hH.size]; exact hcopy,hd,by rw [hlen, List.length_replicate],
      by rw [hH.size]; exact hfront,fun b cb hb => ?_⟩
    obtain ⟨hb',hbne⟩ := live_alloc_old h n b cb hb
    exact ⟨(hother b hbne).trans hb',hbne⟩

theorem holds_copyConstruct (hH : Holds h v l) :
    ∃ h' v', copyConstruct h v = some (h',v') ∧ Holds h' v' l ∧
      ∀ b cs, live h b = some cs → live h' b = some cs ∧ v'.array ≠ some b := by
  obtain ⟨h',cs,hcopy,hlive,hlen,htake,hold⟩ := holds_copy hH v.capacity hH.fits
  refine ⟨h',⟨some (alloc h v.capacity).1,v.size,v.capacity⟩,?_,?_,fun b cb hb => ?_⟩
  · simp only [copyConstruct, bind, hcopy, Option.bind_some]
  · refine ⟨hH.size,hH.fits,hH.power,hH.bounded,fun hn => (nomatch hn),fun a ha => ?_⟩
    cases ha
    exact ⟨cs,hlive,hlen,htake⟩
  · obtain ⟨hb',hne⟩ := hold b cb hb
    exact ⟨hb',fun he => hne (Option.some.inj he).symm⟩

theorem deleteArray_eq (hH : Holds h v l) :
    ∃ h', deleteArray h v.array = some h' ∧
      ∀ b cs, live h b = some cs → v.array ≠ some b → live h' b = some cs := by
  cases ha : v.array with
  | none => exact ⟨h,rfl,fun b cs hb _ => hb⟩
  | some a =>
    obtain ⟨cs,hcs,-,-⟩ := hH.cells a ha
    obtain ⟨h',hf,hother⟩ := free_eq h a cs hcs
    exact ⟨h',hf,fun b cb hb hne => (hother b fun he => hne (by rw [he])).trans hb⟩

theorem holds_reserve (hH : Holds h v l) (n : ℕ) (hn : v.capacity < n) (hb : n < 2^64)
    (hp : ∃ k, n = 2^k) :
    ∃ h' v', reserve h v n = some (h',v') ∧ Becomes h h' v v' l ∧ v'.capacity = n := by
  obtain ⟨h₁,cs,hcopy,hlive,hlen,htake,hold⟩ := holds_copy hH n (hH.fits.trans hn.le)
  have hH₁ : Holds h₁ v l := holds_frame h₁ hH fun a ca _ ha => (hold a ca ha).1
  obtain ⟨h₂,hdelete,hrest⟩ := deleteArray_eq hH₁
  have hnew : v.array ≠ some (alloc h n).1 := by
    intro ha
    obtain ⟨ca,hca,-,-⟩ := hH.cells _ ha
    exact (hold _ ca hca).2 rfl
  refine ⟨h₂,{ v with array := some (alloc h n).1, capacity := n },?_,⟨?_,hn.le,?_⟩,rfl⟩
  · simp only [reserve, if_pos hn, bind, hcopy, Option.bind_some, hdelete]
  · refine ⟨hH.size,hH.fits.trans hn.le,Or.inr hp,hb,fun h0 => (nomatch h0),fun a ha => ?_⟩
    cases ha
    exact ⟨cs,hrest _ cs hlive hnew,hlen,htake⟩
  · intro b cb hb' hv
    obtain ⟨hb₁,hne⟩ := hold b cb hb'
    exact ⟨hrest b cb hb₁ hv,fun he => hne (Option.some.inj he).symm⟩

theorem holds_grow (hH : Holds h v l) (hd : v.size = v.capacity → v.capacity*2 < 2^64) :
    ∃ h' v', grow h v = some (h',v') ∧ Becomes h h' v v' l ∧ v'.size < v'.capacity := by
  by_cases hfull : v.size = v.capacity
  · have hgrows : ∀ n, v.capacity < n → n < 2^64 → (∃ k, n = 2^k) → grow h v = reserve h v n →
        ∃ h' v', grow h v = some (h',v') ∧ Becomes h h' v v' l ∧ v'.size < v'.capacity := by
      intro n hn hb hp hg
      obtain ⟨h',v',hr,hB,hc⟩ := holds_reserve hH n hn hb hp
      refine ⟨h',v',hg.trans hr,hB,?_⟩
      rw [hc, hB.holds.size, ← hH.size, hfull]
      exact hn
    rcases hH.power with h0 | ⟨k,hk⟩
    · exact hgrows 1 (by omega) (by norm_num) ⟨0,rfl⟩ (by rw [grow, if_pos hfull, if_pos h0])
    · have hpos : 0 < v.capacity := by rw [hk]; positivity
      have hlt := hd hfull
      refine hgrows (v.capacity*2) (by omega) hlt ⟨k+1,by rw [hk, pow_succ]⟩ ?_
      rw [grow, if_pos hfull, if_neg hpos.ne', Nat.mod_eq_of_lt hlt]
  · refine ⟨h,v,by rw [grow, if_neg hfull],⟨hH,le_rfl,leaves_refl h v⟩,?_⟩
    exact lt_of_le_of_ne hH.fits hfull

theorem Becomes.trans {h₁ h₂ : Heap T} {v₁ v₂ : Vector} {l' : List T} (hB : Becomes h h₁ v v₁ l)
    (hB' : Becomes h₁ h₂ v₁ v₂ l') : Becomes h h₂ v v₂ l' := by
  refine ⟨hB'.holds,hB.grows.trans hB'.grows,fun b cs hb hv => ?_⟩
  obtain ⟨hb₁,hv₁⟩ := hB.leaves b cs hb hv
  exact hB'.leaves b cs hb₁ hv₁

theorem holds_array (hH : Holds h v l) (hc : 0 < v.capacity) :
    ∃ a cs, v.array = some a ∧ live h a = some cs ∧ cs.length = v.capacity ∧
      cs.take v.size = l.map some := by
  cases ha : v.array with
  | none => exact absurd (hH.null ha) hc.ne'
  | some a =>
    obtain ⟨cs,hcs,hlen,htake⟩ := hH.cells a ha
    exact ⟨a,cs,rfl,hcs,hlen,htake⟩

theorem holds_write (hH : Holds h v l) (pos n : ℕ) (x : T) (l' : List T) (hpos : pos < v.capacity)
    (hn : n ≤ v.capacity) (hl : n = l'.length)
    (htake : ∀ cs : Cells T, cs.length = v.capacity → cs.take v.size = l.map some →
      (cs.set pos (some x)).take n = l'.map some) :
    ∃ a h', v.array = some a ∧ write h a pos x = some h' ∧
      Becomes h h' v { v with size := n } l' := by
  obtain ⟨a,cs,ha,hcs,hlen,hfront⟩ := holds_array hH (Nat.zero_lt_of_lt hpos)
  obtain ⟨h',hw,hself,hother⟩ := write_eq h a pos x cs hcs (by omega)
  refine ⟨a,h',ha,hw,⟨?_,le_rfl,fun b cb hb hv => ?_⟩⟩
  · refine ⟨hl,hn,hH.power,hH.bounded,hH.null,fun a' ha' => ?_⟩
    obtain rfl : a = a' := Option.some.inj (ha.symm.trans ha')
    exact ⟨_,hself,by rw [List.length_set, hlen],htake cs hlen hfront⟩
  · exact ⟨(hother b fun he => hv (by rw [ha, he])).trans hb,hv⟩

theorem holds_pushBack (hH : Holds h v l) (x : T)
    (hd : v.size = v.capacity → v.capacity*2 < 2^64) :
    ∃ h' v', pushBack h v x = some (h',v') ∧ Becomes h h' v v' (l++[x]) ∧
      v.size < v'.capacity := by
  obtain ⟨h₁,v₁,hg,hB,hroom⟩ := holds_grow hH hd
  have hH₁ := hB.holds
  have hsize : v₁.size = v.size := hH₁.size.trans hH.size.symm
  have hinc : (v₁.size+1)%2^64 = v₁.size+1 := by
    have := hH₁.bounded
    exact Nat.mod_eq_of_lt (by omega)
  obtain ⟨a,h₂,ha,hw,hB₂⟩ := holds_write hH₁ v₁.size (v₁.size+1) x (l++[x]) hroom hroom
    (by simp [hH₁.size]) (fun cs hlen ht => take_set_snoc cs l x v₁.size (by omega) ht)
  refine ⟨h₂,{ v₁ with size := v₁.size+1 },?_,hB.trans hB₂,by rw [← hsize]; exact hroom⟩
  simp only [pushBack, bind, hg, Option.bind_some, ha, hw, hinc]

theorem holds_popBack (hH : Holds h v l) : Becomes h h v (popBack v) l.dropLast := by
  have hs := hH.size
  have hf := hH.fits
  by_cases h0 : v.size > 0
  · rw [popBack, if_pos h0]
    refine ⟨⟨?_,by simp only; omega,hH.power,hH.bounded,hH.null,fun a ha => ?_⟩,le_rfl,
      leaves_refl h v⟩
    · rw [List.length_dropLast, ← hs]
    · obtain ⟨cs,hcs,hlen,htake⟩ := hH.cells a ha
      refine ⟨cs,hcs,hlen,?_⟩
      rw [List.map_dropLast, ← htake, List.dropLast_eq_take, List.take_take, List.length_take]
      congr 1
      change v.size-1 = min (min v.size cs.length-1) v.size
      omega
  · rw [popBack, if_neg h0]
    obtain rfl : l = [] := List.length_eq_zero_iff.mp (by omega)
    exact ⟨hH,le_rfl,leaves_refl h v⟩

theorem holds_get (hH : Holds h v l) (pos : ℕ) (x : T) (hx : l[pos]? = some x) :
    ∃ a, v.array = some a ∧ read h a pos = some x := by
  have hpos : pos < v.size := by
    rw [hH.size]
    exact (List.getElem?_eq_some_iff.mp hx).1
  obtain ⟨a,cs,ha,hcs,-,htake⟩ := holds_array hH (Nat.zero_lt_of_lt (hpos.trans_le hH.fits))
  refine ⟨a,ha,read_eq h a pos cs x hcs ?_⟩
  have hcell := congrArg (fun l => l[pos]?) htake
  simpa [hpos, hx, List.getElem?_take] using hcell

theorem holds_set (hH : Holds h v l) (pos : ℕ) (x : T) (hpos : pos < v.size) :
    ∃ a h', v.array = some a ∧ write h a pos x = some h' ∧ Becomes h h' v v (l.set pos x) := by
  apply holds_write hH pos v.size x _ (hpos.trans_le hH.fits) hH.fits
  · rw [List.length_set]
    exact hH.size
  · intro cs _ ht
    rw [List.take_set, ht, List.map_set]

end Object

/-- The objects stand for the lists, and no two of them own one array. -/
structure Owned (h : Heap T) (objects : ℕ → Option Vector) (lists : ℕ → Option (List T)) :
    Prop where
  holds : ∀ id, Option.Rel (Holds h) (objects id) (lists id)
  apart : ∀ i j v u a, objects i = some v → objects j = some u → v.array = some a →
    u.array = some a → i = j

structure Refines (w : World T) (ls : Lists T) : Prop where
  owned : Owned w.heap w.objects ls.lists
  born : w.born = ls.born
  unborn : ∀ id, w.born ≤ id → w.objects id = none
  outputs : w.outputs = ls.outputs

section Objects

variable {h h' : Heap T} {objects : ℕ → Option Vector} {lists : ℕ → Option (List T)}

theorem owned_holds (hO : Owned h objects lists) (id : ℕ) (v : Vector) (hv : objects id = some v) :
    ∃ l, lists id = some l ∧ Holds h v l := by
  have hrel := hO.holds id
  rw [hv] at hrel
  generalize lists id = l at hrel ⊢
  cases hrel with
  | some hH => exact ⟨_,rfl,hH⟩

theorem owned_object (hO : Owned h objects lists) (id : ℕ) (l : List T) (hl : lists id = some l) :
    ∃ v, objects id = some v ∧ Holds h v l := by
  have hrel := hO.holds id
  rw [hl] at hrel
  generalize objects id = v at hrel ⊢
  cases hrel with
  | some hH => exact ⟨_,rfl,hH⟩

theorem owned_update (hO : Owned h objects lists) (id : ℕ) (v' : Option Vector)
    (l' : Option (List T)) (hrel : Option.Rel (Holds h') v' l')
    (hold : ∀ b cs, live h b = some cs → (∀ v ∈ objects id, v.array ≠ some b) →
      live h' b = some cs ∧ ∀ u ∈ v', u.array ≠ some b) :
    Owned h' (Function.update objects id v') (Function.update lists id l') := by
  have hother : ∀ j u a cs, j ≠ id → objects j = some u → u.array = some a →
      live h a = some cs → live h' a = some cs ∧ ∀ u' ∈ v', u'.array ≠ some a := by
    intro j u a cs hj hu ha hcs
    exact hold a cs hcs fun v hv hva => hj (hO.apart j id u v a hu hv ha hva)
  have hfresh : ∀ j u a v, j ≠ id → objects j = some u → u.array = some a → v' = some v →
      v.array ≠ some a := by
    intro j u a v hj hu ha hv
    obtain ⟨l,-,hH⟩ := owned_holds hO j u hu
    obtain ⟨cs,hcs,-,-⟩ := hH.cells a ha
    exact (hother j u a cs hj hu ha hcs).2 v hv
  refine ⟨fun j => ?_,fun i j v u a hv hu hva hua => ?_⟩
  · by_cases hj : j = id
    · subst hj
      rwa [Function.update_self, Function.update_self]
    · rw [Function.update_of_ne hj, Function.update_of_ne hj]
      have hrel := hO.holds j
      generalize hu : objects j = u, lists j = l at hrel ⊢
      cases hrel with
      | none => exact .none
      | some hH =>
        exact .some (holds_frame h' hH fun a cs ha hcs => (hother j _ a cs hj hu ha hcs).1)
  · by_cases hi : i = id <;> by_cases hj : j = id
    · exact hi.trans hj.symm
    · rw [hi, Function.update_self] at hv
      rw [Function.update_of_ne hj] at hu
      exact absurd hva (hfresh j u a v hj hu hua hv)
    · rw [hj, Function.update_self] at hu
      rw [Function.update_of_ne hi] at hv
      exact absurd hua (hfresh i v a u hi hv hva hu)
    · rw [Function.update_of_ne hi] at hv
      rw [Function.update_of_ne hj] at hu
      exact hO.apart i j v u a hv hu hva hua

variable {w : World T} {ls : Lists T}

theorem refines_born (hR : Refines w ls) (id : ℕ) (v : Vector) (hv : w.objects id = some v) :
    id < w.born := by
  by_contra hn
  exact absurd ((hR.unborn id (by omega)).symm.trans hv) nofun

theorem refines_put (hR : Refines w ls) (id : ℕ) (v' : Option Vector) (l' : Option (List T))
    (o : Output T) (hid : id < w.born) (hO : Owned h' (Function.update w.objects id v')
      (Function.update ls.lists id l')) : Refines (w.put h' id v' o) (ls.put id l' o) := by
  refine ⟨hO,hR.born,fun j hj => ?_,congrArg (· ++ [o]) hR.outputs⟩
  have hne : j ≠ id := by
    rintro rfl
    exact absurd hid (Nat.not_lt.mpr hj)
  exact (Function.update_of_ne hne _ _).trans (hR.unborn j hj)

theorem refines_becomes (hR : Refines w ls) (id : ℕ) (v v' : Vector) (l : List T) (o : Output T)
    (hv : w.objects id = some v) (hB : Becomes w.heap h' v v' l) :
    Refines (w.put h' id (some v') o) (ls.put id (some l) o) := by
  refine refines_put hR id _ _ o (refines_born hR id v hv)
    (owned_update hR.owned id _ _ (.some hB.holds) ?_)
  intro b cs hb hne
  obtain ⟨hb',hne'⟩ := hB.leaves b cs hb (hne v hv)
  exact ⟨hb',fun u hu => by rwa [← Option.some.inj hu]⟩

theorem refines_create (hR : Refines w ls) (v : Vector) (l : List T) (hH : Holds h' v l)
    (hold : ∀ b cs, live w.heap b = some cs → live h' b = some cs ∧ v.array ≠ some b) :
    Refines (w.create h' v) (ls.create l) := by
  have hO : Owned h' (Function.update w.objects w.born (some v))
      (Function.update ls.lists ls.born (some l)) := by
    rw [← hR.born]
    refine owned_update hR.owned w.born _ _ (.some hH) fun b cs hb _ => ?_
    obtain ⟨hb',hne⟩ := hold b cs hb
    exact ⟨hb',fun u hu => by rwa [← Option.some.inj hu]⟩
  refine ⟨hO,congrArg (·+1) hR.born,fun j hj => ?_,congrArg (· ++ [_]) hR.outputs⟩
  have hne : j ≠ w.born := Nat.ne_of_gt hj
  exact (Function.update_of_ne hne _ _).trans (hR.unborn j (Nat.le_of_lt hj))

theorem refines_out (hR : Refines w ls) (o : Output T) : Refines (w.out o) (ls.out o) :=
  ⟨hR.owned,hR.born,hR.unborn,congrArg (· ++ [o]) hR.outputs⟩

end Objects

/-- Doubling a full vector stays below `2^64`. -/
def Doubles (w : World T) : Op T → Prop
  | .pushBack id _ => ∀ v ∈ w.objects id, v.size = v.capacity → v.capacity*2 < 2^64
  | _ => True

instance decidableDoubles (w : World T) : ∀ op, Decidable (Doubles w op)
  | .pushBack id _ =>
    inferInstanceAs (Decidable (∀ v ∈ w.objects id, v.size = v.capacity → v.capacity*2 < 2^64))
  | .construct | .copy _ | .popBack _ | .get _ _ | .set _ _ _ | .destroy _ =>
    inferInstanceAs (Decidable True)

theorem start_refines : Refines (start : World T) startLists :=
  ⟨⟨fun _ => .none,fun _ _ _ _ _ hv => (nomatch hv)⟩,rfl,fun _ _ => rfl,rfl⟩

theorem step_refines (w : World T) (ls : Lists T) (op : Op T) (ls' : Lists T) (hR : Refines w ls)
    (hg : Doubles w op) (hs : listStep ls op = some ls') :
    ∃ w', step w op = some w' ∧ Refines w' ls' := by
  cases op with
  | construct =>
    cases hs
    exact ⟨_,rfl,refines_create hR _ _ (holds_nil _) fun b cs hb => ⟨hb,nofun⟩⟩
  | copy src =>
    obtain ⟨l,hl,rfl⟩ := Option.map_eq_some_iff.mp hs
    obtain ⟨v,hv,hH⟩ := owned_object hR.owned src l hl
    obtain ⟨h',v',hc,hH',hold⟩ := holds_copyConstruct hH
    refine ⟨w.create h' v',?_,refines_create hR v' l hH' hold⟩
    simp only [step, bind, hv, Option.bind_some, hc]
  | pushBack id x =>
    obtain ⟨l,hl,rfl⟩ := Option.map_eq_some_iff.mp hs
    obtain ⟨v,hv,hH⟩ := owned_object hR.owned id l hl
    obtain ⟨h',v',hp,hB,-⟩ := holds_pushBack hH x (hg v hv)
    refine ⟨w.put h' id (some v') .done,?_,refines_becomes hR id v v' _ _ hv hB⟩
    simp only [step, bind, hv, Option.bind_some, hp]
  | popBack id =>
    obtain ⟨l,hl,rfl⟩ := Option.map_eq_some_iff.mp hs
    obtain ⟨v,hv,hH⟩ := owned_object hR.owned id l hl
    refine ⟨w.put w.heap id (some (popBack v)) .done,?_,
      refines_becomes hR id v _ _ _ hv (holds_popBack hH)⟩
    simp only [step, bind, hv, Option.bind_some]
  | get id pos =>
    obtain ⟨l,hl,rfl⟩ := Option.map_eq_some_iff.mp hs
    obtain ⟨v,hv,hH⟩ := owned_object hR.owned id l hl
    cases hx : l[pos]? with
    | none =>
      have hpos : pos ≥ v.size := by
        rw [hH.size]
        exact List.getElem?_eq_none_iff.mp hx
      refine ⟨w.out .threw,?_,refines_out hR _⟩
      simp only [step, bind, hv, Option.bind_some, if_pos hpos]
    | some x =>
      have hpos : ¬ pos ≥ v.size := by
        rw [hH.size]
        exact Nat.not_le.mpr (List.getElem?_eq_some_iff.mp hx).1
      obtain ⟨a,ha,hr⟩ := holds_get hH pos x hx
      refine ⟨w.out (.value x),?_,refines_out hR _⟩
      simp only [step, bind, hv, Option.bind_some, if_neg hpos, ha, hr]
  | set id pos x =>
    obtain ⟨l,hl,rfl⟩ := Option.map_eq_some_iff.mp hs
    obtain ⟨v,hv,hH⟩ := owned_object hR.owned id l hl
    by_cases hpos : pos < l.length
    · have hge : ¬ pos ≥ v.size := by
        rw [hH.size]
        exact Nat.not_le.mpr hpos
      obtain ⟨a,h',ha,hw,hB⟩ := holds_set hH pos x (Nat.not_le.mp hge)
      rw [if_pos hpos]
      refine ⟨w.put h' id (some v) .done,?_,refines_becomes hR id v v _ _ hv hB⟩
      simp only [step, bind, hv, Option.bind_some, if_neg hge, ha, hw]
    · have hge : pos ≥ v.size := by
        rw [hH.size]
        exact Nat.not_lt.mp hpos
      rw [if_neg hpos]
      refine ⟨w.out .threw,?_,refines_out hR _⟩
      simp only [step, bind, hv, Option.bind_some, if_pos hge]
  | destroy id =>
    obtain ⟨l,hl,rfl⟩ := Option.map_eq_some_iff.mp hs
    obtain ⟨v,hv,hH⟩ := owned_object hR.owned id l hl
    obtain ⟨h',hd,hrest⟩ := deleteArray_eq hH
    refine ⟨w.put h' id none .done,?_,?_⟩
    · simp only [step, bind, hv, Option.bind_some, hd]
    · refine refines_put hR id none none .done (refines_born hR id v hv)
        (owned_update hR.owned id none none .none fun b cs hb hne => ?_)
      exact ⟨hrest b cs hb (hne v hv),nofun⟩

section Capacity

variable {h h' : Heap T} {v v' : Vector} {w w' : World T}

theorem reserve_capacity (n : ℕ) (hr : reserve h v n = some (h',v')) :
    v.capacity ≤ v'.capacity := by
  rw [reserve] at hr
  split at hr
  · simp only [bind, Option.bind_eq_some_iff] at hr
    obtain ⟨h₁,-,h₂,-,he⟩ := hr
    cases he
    exact Nat.le_of_lt ‹_›
  · cases hr
    exact le_rfl

theorem grow_capacity (hg : grow h v = some (h',v')) : v.capacity ≤ v'.capacity := by
  rw [grow] at hg
  split at hg
  · split at hg
    · exact reserve_capacity _ hg
    · exact reserve_capacity _ hg
  · cases hg
    exact le_rfl

theorem pushBack_capacity (x : T) (hp : pushBack h v x = some (h',v')) :
    v.capacity ≤ v'.capacity := by
  simp only [pushBack, bind, Option.bind_eq_some_iff] at hp
  obtain ⟨⟨h₁,v₁⟩,hg,a,-,h₂,-,he⟩ := hp
  cases he
  have hc := grow_capacity hg
  exact hc

theorem popBack_capacity (v : Vector) : (popBack v).capacity = v.capacity := by
  rw [popBack]
  split <;> rfl

/-- A step adds an object, replaces one by an object of no smaller capacity, destroys
one, or changes none. -/
theorem step_cases (op : Op T) (hs : step w op = some w') :
    (∃ h v, w' = w.create h v) ∨
    (∃ h id v v' o, w.objects id = some v ∧ (∀ u ∈ v', v.capacity ≤ u.capacity) ∧
      w' = w.put h id v' o) ∨
    ∃ o, w' = w.out o := by
  cases op with
  | construct =>
    cases hs
    exact Or.inl ⟨_,_,rfl⟩
  | copy src =>
    simp only [step, bind, Option.bind_eq_some_iff] at hs
    obtain ⟨other,-,⟨h,v⟩,-,he⟩ := hs
    cases he
    exact Or.inl ⟨h,v,rfl⟩
  | pushBack id x =>
    simp only [step, bind, Option.bind_eq_some_iff] at hs
    obtain ⟨v,hv,⟨h,v'⟩,hp,he⟩ := hs
    cases he
    refine Or.inr (Or.inl ⟨h,id,v,some v',_,hv,fun u hu => ?_,rfl⟩)
    cases hu
    exact pushBack_capacity x hp
  | popBack id =>
    simp only [step, bind, Option.bind_eq_some_iff] at hs
    obtain ⟨v,hv,he⟩ := hs
    cases he
    refine Or.inr (Or.inl ⟨_,id,v,some (popBack v),_,hv,fun u hu => ?_,rfl⟩)
    cases hu
    exact (popBack_capacity v).ge
  | get id pos =>
    simp only [step, bind, Option.bind_eq_some_iff] at hs
    obtain ⟨v,hv,hs⟩ := hs
    split at hs
    · cases hs
      exact Or.inr (Or.inr ⟨_,rfl⟩)
    · simp only [Option.bind_eq_some_iff] at hs
      obtain ⟨a,-,x,-,he⟩ := hs
      cases he
      exact Or.inr (Or.inr ⟨_,rfl⟩)
  | set id pos x =>
    simp only [step, bind, Option.bind_eq_some_iff] at hs
    obtain ⟨v,hv,hs⟩ := hs
    split at hs
    · cases hs
      exact Or.inr (Or.inr ⟨_,rfl⟩)
    · simp only [Option.bind_eq_some_iff] at hs
      obtain ⟨a,-,h,-,he⟩ := hs
      cases he
      refine Or.inr (Or.inl ⟨h,id,v,some v,_,hv,fun u hu => ?_,rfl⟩)
      cases hu
      exact le_rfl
  | destroy id =>
    simp only [step, bind, Option.bind_eq_some_iff] at hs
    obtain ⟨v,hv,h,-,he⟩ := hs
    cases he
    exact Or.inr (Or.inl ⟨h,id,v,none,_,hv,nofun,rfl⟩)

theorem step_capacity (id c : ℕ) (op : Op T)
    (hw : id < w.born ∧ ∀ v ∈ w.objects id, c ≤ v.capacity) (hs : step w op = some w') :
    id < w'.born ∧ ∀ v ∈ w'.objects id, c ≤ v.capacity := by
  obtain ⟨hid,hc⟩ := hw
  obtain ⟨h,v,rfl⟩ | ⟨h,i,v,v',o,hv,hle,rfl⟩ | ⟨o,rfl⟩ := step_cases op hs
  · refine ⟨Nat.lt_succ_of_lt hid,fun u hu => hc u ?_⟩
    rwa [← Function.update_of_ne (Nat.ne_of_lt hid) (some v) w.objects]
  · refine ⟨hid,fun u hu => ?_⟩
    by_cases hi : id = i
    · subst hi
      have hu' : u ∈ v' := by rwa [← Function.update_self id v' w.objects]
      exact (hc v hv).trans (hle u hu')
    · exact hc u (by rwa [← Function.update_of_ne hi v' w.objects])
  · exact ⟨hid,hc⟩

theorem run_capacity (id : ℕ) (ops : List (Op T)) (hid : id < w.born) (hv : w.objects id = some v)
    (hr : run step w ops = some w') (hv' : w'.objects id = some v') :
    v.capacity ≤ v'.capacity := by
  have hc : ∀ u ∈ w.objects id, v.capacity ≤ u.capacity := by
    intro u hu
    cases hv.symm.trans hu
    exact le_rfl
  exact (run_invariant (fun s => id < s.born ∧ ∀ u ∈ s.objects id, v.capacity ≤ u.capacity)
    (fun s op t => step_capacity id v.capacity op) w w' ops ⟨hid,hc⟩ hr).2 v' hv'

end Capacity

section Throws

variable {w : World T} {v : Vector}

theorem get_throws_iff (id pos : ℕ) (hv : w.objects id = some v) :
    step w (.get id pos) = some (w.out .threw) ↔ pos ≥ v.size := by
  constructor
  · intro hs
    by_contra hn
    simp only [step, bind, hv, Option.bind_some, if_neg hn, Option.bind_eq_some_iff] at hs
    obtain ⟨a,-,x,-,he⟩ := hs
    simp [World.out] at he
  · intro hpos
    simp only [step, bind, hv, Option.bind_some, if_pos hpos]

theorem set_throws_iff (id pos : ℕ) (x : T) (hv : w.objects id = some v) :
    step w (.set id pos x) = some (w.out .threw) ↔ pos ≥ v.size := by
  constructor
  · intro hs
    by_contra hn
    simp only [step, bind, hv, Option.bind_some, if_neg hn, Option.bind_eq_some_iff] at hs
    obtain ⟨a,-,h,-,he⟩ := hs
    simp [World.put, World.out] at he
  · intro hpos
    simp only [step, bind, hv, Option.bind_some, if_pos hpos]

end Throws

/-- The state after the operations: the objects stand for the lists, `operator[]` throws
past the end only, no capacity is smaller than at an earlier time, and one more element
has a cell. -/
structure Meets (ops : List (Op T)) (w : World T) (ls : Lists T) : Prop where
  refines : Refines w ls
  throws : ∀ id v pos x, w.objects id = some v →
    (step w (.get id pos) = some (w.out .threw) ↔ pos ≥ v.size) ∧
    (step w (.set id pos x) = some (w.out .threw) ↔ pos ≥ v.size)
  capacity : ∀ ops₁ ops₂ w₁ id v v', ops = ops₁ ++ ops₂ → run step start ops₁ = some w₁ →
    w₁.objects id = some v → w.objects id = some v' → v.capacity ≤ v'.capacity
  room : ∀ id v x, w.objects id = some v → Doubles w (.pushBack id x) →
    ∃ w' v', step w (.pushBack id x) = some w' ∧ w'.objects id = some v' ∧ v.size < v'.capacity

theorem pushBack_room {w : World T} {ls : Lists T} (hR : Refines w ls) (id : ℕ) (v : Vector) (x : T)
    (hv : w.objects id = some v) (hg : Doubles w (.pushBack id x)) :
    ∃ w' v', step w (.pushBack id x) = some w' ∧ w'.objects id = some v' ∧
      v.size < v'.capacity := by
  obtain ⟨l,-,hH⟩ := owned_holds hR.owned id v hv
  obtain ⟨h',v',hp,-,hroom⟩ := holds_pushBack hH x (hg v hv)
  refine ⟨w.put h' id (some v') .done,v',?_,by simp [World.put],hroom⟩
  simp only [step, bind, hv, Option.bind_some, hp]

theorem run_refines (ops : List (Op T)) (ls : Lists T)
    (hls : run listStep startLists ops = some ls) (hg : Along step Doubles start ops) :
    ∃ w, run step start ops = some w ∧ Refines w ls :=
  simulation Refines (fun w ls op ls' => step_refines w ls op ls') start startLists ls ops
    start_refines hg hls

/-- Every sequence of operations that lists can perform is performed by vectors, with
the same outputs and contents, as long as doubling stays below `2^64`. -/
theorem vectors_refine_lists (ops : List (Op T)) (ls : Lists T)
    (hls : run listStep startLists ops = some ls) (hg : Along step Doubles start ops) :
    ∃ w, run step start ops = some w ∧ Meets ops w ls := by
  obtain ⟨w,hw,hR⟩ := run_refines ops ls hls hg
  refine ⟨w,hw,hR,?_,?_,fun id v x hv hd => pushBack_room hR id v x hv hd⟩
  · exact fun id v pos x hv => ⟨get_throws_iff id pos hv,set_throws_iff id pos x hv⟩
  · rintro ops₁ ops₂ w₁ id v v' rfl hw₁ hv hv'
    obtain ⟨ls₁,hls₁,-⟩ := (run_append_iff _ _ ops₁ ops₂).mp hls
    obtain ⟨w₁',hw₁',hR₁⟩ := run_refines ops₁ ls₁ hls₁ (along_append_left start ops₁ ops₂ hg)
    obtain rfl : w₁ = w₁' := Option.some.inj (hw₁.symm.trans hw₁')
    obtain ⟨w₂,hw₂,hr⟩ := (run_append_iff _ _ ops₁ ops₂).mp hw
    obtain rfl : w₁ = w₂ := Option.some.inj (hw₁.symm.trans hw₂)
    exact run_capacity id ops₂ (refines_born hR₁ id v hv) hv hr hv'

def mainOps : List (Op ℤ) :=
  [.construct,.pushBack 0 10,.pushBack 0 20,.pushBack 0 30,.copy 0,.get 1 1,.pushBack 1 40,
    .pushBack 1 50,.set 1 0 7,.popBack 0,.get 0 0,.get 0 2,.set 0 2 8]

theorem mainOps_refine : ∃ ls w, run listStep startLists mainOps = some ls ∧
    ls.lists 0 = some [10,20] ∧ ls.lists 1 = some [7,20,30,40,50] ∧
    ls.outputs.filter (· ≠ .done) = [.value 20,.value 10,.threw,.threw] ∧
    run step start mainOps = some w ∧ Meets mainOps w ls := by
  obtain ⟨w,hw,hm⟩ := vectors_refine_lists mainOps _ rfl (by decide +kernel)
  exact ⟨_,w,rfl,rfl,rfl,by decide,hw,hm⟩

end WdHttp.CppVector
