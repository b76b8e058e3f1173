import Mathlib.Data.List.Infix
import Mathlib.Data.Option.Basic
import Mathlib.Logic.Function.Basic

/-!
# Trees of paths

A tree whose edges carry keys holds a value at each of its paths. Changing the value at a
path makes the nodes on the way; what is at other paths stays.
-/

set_option autoImplicit false

namespace WdHttp.PathTree

theorem eq_of_no_longer {K : Type} {q ks : List K} (hq : q <+: ks)
    (h : ∀ k, ¬ q ++ [k] <+: ks) : ks = q := by
  obtain ⟨tl,htl⟩ := hq
  cases tl with
  | nil => rw [← htl, List.append_nil]
  | cons k tl => exact absurd ⟨tl,by rw [← htl, List.append_assoc]; rfl⟩ (h k)

inductive Tree (K V : Type) where
  | node (value : V) (children : List (K × Tree K V))

namespace Tree

variable {K V : Type}

def value : Tree K V → V
  | node v _ => v

def children : Tree K V → List (K × Tree K V)
  | node _ cs => cs

variable [DecidableEq K]

def child (t : Tree K V) (k : K) : Option (Tree K V) := t.children.lookup k

def get? : Tree K V → List K → Option (Tree K V)
  | t, [] => some t
  | t, k :: ks => (t.child k).bind fun c => c.get? ks

def valueAt (t : Tree K V) (ks : List K) : Option V := (t.get? ks).map value

/-- The deepest node on the way that has a child of the key: the value of the child and what is
left of the way there. -/
def nearest (key : K) : List K → Tree K V → Option (V × List K)
  | [], t => (t.child key).map fun c => (c.value,[])
  | k :: ks, t =>
    ((t.child k).bind (nearest key ks)).or ((t.child key).map fun c => (c.value,k :: ks))

variable [LT K] [DecidableLT K]

/-- A new child stands before the first one of a greater key. -/
def insertNew (k : K) (c : Tree K V) : List (K × Tree K V) → List (K × Tree K V)
  | [] => [(k,c)]
  | kc :: cs => if k < kc.1 then (k,c) :: kc :: cs else kc :: insertNew k c cs

/-- A child of a key that is there is replaced where it stands. -/
def insertChild (k : K) (c : Tree K V) (cs : List (K × Tree K V)) : List (K × Tree K V) :=
  if k ∈ cs.map Prod.fst then cs.map fun kc => if kc.1 = k then (k,c) else kc
  else insertNew k c cs

/-- The value at a path is changed; the nodes that are missing are made with `fresh`. -/
def modify (fresh : V) (f : V → V) : List K → Tree K V → Tree K V
  | [], node v cs => node (f v) cs
  | k :: ks, node v cs =>
    node v (insertChild k (modify fresh f ks ((cs.lookup k).getD (node fresh []))) cs)

section Lemmas

variable {fresh : V} {f : V → V} {t : Tree K V}

omit [LT K] [DecidableLT K] in
@[simp] theorem valueAt_nil : t.valueAt [] = some t.value := rfl

omit [LT K] [DecidableLT K] in
theorem valueAt_cons (k : K) (ks : List K) :
    t.valueAt (k :: ks) = (t.child k).bind fun c => c.valueAt ks := by
  rw [valueAt, get?, Option.map_bind]
  rfl

omit [LT K] [DecidableLT K] in
theorem valueAt_singleton (k : K) : t.valueAt [k] = (t.child k).map value := by
  rw [valueAt_cons]
  cases t.child k <;> rfl

omit [LT K] [DecidableLT K] in
theorem nearest_eq_none_iff (key : K) (ks : List K) :
    t.nearest key ks = none ↔ ∀ q, q <+: ks → t.valueAt (q ++ [key]) = none := by
  have hhere : ∀ (t : Tree K V) (rest : List K),
      (t.child key).map (fun c => (c.value,rest)) = none ↔ t.valueAt ([] ++ [key]) = none := by
    intro t rest
    rw [List.nil_append, valueAt_singleton, Option.map_eq_none_iff, Option.map_eq_none_iff]
  induction ks generalizing t with
  | nil =>
    rw [nearest, hhere]
    simp only [List.prefix_nil, forall_eq]
  | cons k ks ih =>
    have hbelow : (t.child k).bind (nearest key ks) = none ↔
        ∀ q, q <+: ks → t.valueAt (k :: q ++ [key]) = none := by
      simp only [List.cons_append, valueAt_cons]
      cases t.child k with
      | none => simp
      | some c => exact ih
    rw [nearest, Option.or_eq_none_iff, hhere, hbelow]
    constructor
    · rintro ⟨hks,hnil⟩ q hq
      rcases List.prefix_cons_iff.mp hq with rfl | ⟨q,rfl,hpre⟩
      · exact hnil
      · exact hks q hpre
    · intro h
      exact ⟨fun q hq => h _ (List.cons_prefix_cons.mpr ⟨rfl,hq⟩),h [] List.nil_prefix⟩

omit [LT K] [DecidableLT K] in
theorem nearest_spec {key : K} {ks : List K} {v : V} {rest : List K}
    (h : t.nearest key ks = some (v,rest)) :
    ∃ p, ks = p ++ rest ∧ t.valueAt (p ++ [key]) = some v ∧
      ∀ q, q <+: ks → t.valueAt (q ++ [key]) ≠ none → q <+: p := by
  have hhere : ∀ {t : Tree K V} {ks}, (t.child key).map (fun c => (c.value,ks)) = some (v,rest) →
      ks = rest ∧ t.valueAt ([] ++ [key]) = some v := by
    intro t ks h
    obtain ⟨c,hc,heq⟩ := Option.map_eq_some_iff.mp h
    obtain ⟨rfl,rfl⟩ := Prod.mk.inj heq
    rw [List.nil_append, valueAt_singleton, hc]
    exact ⟨rfl,rfl⟩
  induction ks generalizing t with
  | nil =>
    obtain ⟨rfl,hv⟩ := hhere h
    exact ⟨[],rfl,hv,fun q hq _ => hq⟩
  | cons k ks ih =>
    rw [nearest, Option.or_eq_some_iff] at h
    rcases h with hbelow | ⟨hno,hk⟩
    · obtain ⟨c,hc,hnear⟩ := Option.bind_eq_some_iff.mp hbelow
      obtain ⟨p,rfl,hv,hlongest⟩ := ih hnear
      have hchild : ∀ q, t.valueAt (k :: q ++ [key]) = c.valueAt (q ++ [key]) := by
        intro q
        rw [List.cons_append, valueAt_cons, hc]
        rfl
      refine ⟨k :: p,rfl,(hchild p).trans hv,fun q hq hthere => ?_⟩
      rcases List.prefix_cons_iff.mp hq with rfl | ⟨q,rfl,hpre⟩
      · exact List.nil_prefix
      · rw [hchild] at hthere
        exact List.cons_prefix_cons.mpr ⟨rfl,hlongest q hpre hthere⟩
    · obtain ⟨rfl,hv⟩ := hhere hk
      refine ⟨[],rfl,hv,fun q hq hthere => ?_⟩
      rcases List.prefix_cons_iff.mp hq with rfl | ⟨q,rfl,hpre⟩
      · exact List.nil_prefix
      · rw [List.cons_append, valueAt_cons] at hthere
        cases hc : t.child k with
        | none =>
          rw [hc] at hthere
          exact absurd rfl hthere
        | some c =>
          rw [hc, Option.bind_some] at hno hthere
          exact absurd ((nearest_eq_none_iff key ks).mp hno q hpre) hthere

omit [LT K] [DecidableLT K] in
theorem nearest_eq_some_iff (key : K) (ks : List K) (v : V) (rest : List K) :
    t.nearest key ks = some (v,rest) ↔ ∃ p, ks = p ++ rest ∧ t.valueAt (p ++ [key]) = some v ∧
      ∀ q, q <+: ks → t.valueAt (q ++ [key]) ≠ none → q <+: p := by
  refine ⟨nearest_spec,?_⟩
  rintro ⟨p,rfl,hv,hlongest⟩
  have hthere : t.valueAt (p ++ [key]) ≠ none := by
    rw [hv]
    exact Option.some_ne_none _
  cases hnear : t.nearest key (p ++ rest) with
  | none => exact absurd ((nearest_eq_none_iff key _).mp hnear p (List.prefix_append _ _)) hthere
  | some vr =>
    obtain ⟨p',hp',hv',hlongest'⟩ := nearest_spec hnear
    have hthere' : t.valueAt (p' ++ [key]) ≠ none := by
      rw [hv']
      exact Option.some_ne_none _
    have heq : p = p' := (hlongest' p (List.prefix_append _ _) hthere).eq_of_length_le
      (hlongest p' ⟨vr.2,hp'.symm⟩ hthere').length_le
    subst heq
    rw [hv] at hv'
    rw [List.append_cancel_left hp', Option.some.inj hv']

omit [LT K] [DecidableLT K] in
theorem children_eq_nil_iff : t.children = [] ↔ ∀ k, t.valueAt [k] = none := by
  constructor
  · intro h k
    rw [valueAt_cons, child, h]
    rfl
  · intro h
    cases hc : t.children with
    | nil => rfl
    | cons kc cs =>
      have hk := h kc.1
      rw [valueAt_cons, child, hc, List.lookup_cons_self] at hk
      cases hk

omit [LT K] [DecidableLT K] in
theorem child_of_mem {kc : K × Tree K V} (h : kc ∈ t.children) : t.child kc.1 ≠ none := by
  rw [child]
  generalize t.children = cs at h ⊢
  induction cs with
  | nil => cases h
  | cons kc' cs ih =>
    rw [List.lookup_cons]
    cases hb : kc.1 == kc'.1 with
    | true => exact Option.some_ne_none _
    | false =>
      rcases List.mem_cons.mp h with rfl | h
      · rw [beq_self_eq_true] at hb
        cases hb
      · exact ih h

omit [LT K] [DecidableLT K] in
theorem mem_of_child {k : K} {c : Tree K V} (h : t.child k = some c) : (k,c) ∈ t.children := by
  rw [child] at h
  obtain ⟨l,r,hl,-⟩ := List.lookup_eq_some_iff.mp h
  rw [hl]
  exact List.mem_append_right _ List.mem_cons_self

omit [LT K] [DecidableLT K] in
/-- A search by the keys alone finds what the key leads to. -/
theorem child_of_find? {p : K → Bool} {kc : K × Tree K V}
    (h : (t.children.find? fun kc => p kc.1) = some kc) : t.child kc.1 = some kc.2 := by
  have hp : p kc.1 = true := by
    simpa using List.find?_some h
  rw [child]
  generalize t.children = cs at h ⊢
  induction cs with
  | nil => cases h
  | cons kc' cs ih =>
    rw [List.find?_cons] at h
    cases hp' : p kc'.1 with
    | true =>
      rw [hp'] at h
      obtain rfl := Option.some.inj h
      exact List.lookup_cons_self
    | false =>
      rw [hp'] at h
      have hne : kc.1 ≠ kc'.1 := by
        intro heq
        rw [heq, hp'] at hp
        cases hp
      rw [List.lookup_cons, beq_false_of_ne hne]
      exact ih h

theorem lookup_insertNew (k k' : K) (c : Tree K V) (cs : List (K × Tree K V))
    (hk : k ∉ cs.map Prod.fst) :
    (insertNew k c cs).lookup k' = if k' = k then some c else cs.lookup k' := by
  induction cs with
  | nil =>
    by_cases h : k' = k
    · rw [if_pos h, h]
      exact List.lookup_cons_self
    · rw [if_neg h, insertNew, List.lookup_cons, beq_false_of_ne h]
  | cons kc cs ih =>
    rw [List.map_cons, List.mem_cons, not_or] at hk
    rw [insertNew]
    split
    · by_cases h : k' = k
      · rw [if_pos h, h]
        exact List.lookup_cons_self
      · rw [if_neg h, List.lookup_cons, beq_false_of_ne h]
    · rw [List.lookup_cons, List.lookup_cons, ih hk.2]
      by_cases h : k' = k
      · rw [if_pos h, if_pos h, h, beq_false_of_ne hk.1]
      · rw [if_neg h, if_neg h]

omit [LT K] [DecidableLT K] in
theorem lookup_replace (k k' : K) (c : Tree K V) (cs : List (K × Tree K V))
    (hk : k ∈ cs.map Prod.fst) :
    (cs.map fun kc => if kc.1 = k then (k,c) else kc).lookup k' =
      if k' = k then some c else cs.lookup k' := by
  induction cs with
  | nil => cases hk
  | cons kc cs ih =>
    rw [List.map_cons, List.lookup_cons, List.lookup_cons]
    by_cases hkc : kc.1 = k
    · rw [if_pos hkc, hkc]
      by_cases h : k' = k
      · rw [if_pos h, h, beq_self_eq_true]
      · rw [if_neg h, beq_false_of_ne h]
        by_cases hin : k ∈ cs.map Prod.fst
        · exact (ih hin).trans (if_neg h)
        · have hsame : (cs.map fun kc => if kc.1 = k then (k,c) else kc) = cs := by
            conv_rhs => rw [← List.map_id cs]
            apply List.map_congr_left
            intro kc' hmem
            exact if_neg fun heq => hin (List.mem_map.mpr ⟨kc',hmem,heq⟩)
          rw [hsame]
    · have hin : k ∈ cs.map Prod.fst := by
        rw [List.map_cons, List.mem_cons] at hk
        exact hk.resolve_left (Ne.symm hkc)
      rw [if_neg hkc, ih hin]
      by_cases h : k' = k
      · rw [if_pos h, if_pos h, h, beq_false_of_ne (Ne.symm hkc)]
      · rw [if_neg h, if_neg h]

theorem lookup_insertChild (k k' : K) (c : Tree K V) (cs : List (K × Tree K V)) :
    (insertChild k c cs).lookup k' = if k' = k then some c else cs.lookup k' := by
  rw [insertChild]
  split
  next hk => exact lookup_replace k k' c cs hk
  next hk => exact lookup_insertNew k k' c cs hk

omit [LT K] [DecidableLT K] in
theorem valueAt_fresh (qs : List K) :
    (node fresh [] : Tree K V).valueAt qs = if qs = [] then some fresh else none := by
  cases qs with
  | nil => rfl
  | cons k qs => rfl

/-- At the path the changed value, on the way to it what was there or was made, and nothing new
anywhere else. -/
theorem valueAt_modify (ks qs : List K) :
    (t.modify fresh f ks).valueAt qs =
      if qs = ks then some (f ((t.valueAt ks).getD fresh))
      else if qs <+: ks then some ((t.valueAt qs).getD fresh)
      else t.valueAt qs := by
  induction ks generalizing t qs with
  | nil =>
    obtain ⟨v,cs⟩ := t
    cases qs with
    | nil => rfl
    | cons q qs =>
      rw [if_neg (List.cons_ne_nil _ _), if_neg (by simp)]
      rfl
  | cons k ks ih =>
    obtain ⟨v,cs⟩ := t
    cases qs with
    | nil =>
      rw [if_neg (List.cons_ne_nil _ _).symm, if_pos List.nil_prefix]
      rfl
    | cons q qs =>
      have hchild : ((node v cs).modify fresh f (k :: ks)).child q =
          if q = k then some (((cs.lookup k).getD (node fresh [])).modify fresh f ks)
          else cs.lookup q := lookup_insertChild k q _ cs
      rw [valueAt_cons, hchild]
      by_cases hq : q = k
      · subst hq
        have hold : ∀ ps, (node v cs).valueAt (q :: ps) = (cs.lookup q).bind (·.valueAt ps) :=
          fun ps => valueAt_cons q ps
        rw [if_pos rfl, Option.bind_some, ih, hold, hold]
        simp only [List.cons.injEq, true_and, List.cons_prefix_cons]
        cases cs.lookup q with
        | none =>
          simp only [Option.getD_none, Option.bind_none, valueAt_fresh]
          by_cases h1 : qs = ks
          · rw [if_pos h1, if_pos h1]
            split <;> rfl
          · rw [if_neg h1, if_neg h1]
            by_cases h2 : qs <+: ks
            · rw [if_pos h2, if_pos h2]
              split <;> rfl
            · have h3 : qs ≠ [] := fun h => h2 (h ▸ List.nil_prefix)
              rw [if_neg h2, if_neg h2, if_neg h3]
        | some c => rfl
      · have hne : ¬ (q = k ∧ qs = ks) := fun h => hq h.1
        have hpre : ¬ (q = k ∧ qs <+: ks) := fun h => hq h.1
        rw [if_neg hq, valueAt_cons]
        simp only [List.cons.injEq, List.cons_prefix_cons]
        rw [if_neg hne, if_neg hpre]
        exact (valueAt_cons (t := node v cs) q qs).symm

theorem valueAt_modify_ne_none {ks qs : List K} (h : qs <+: ks ∨ t.valueAt qs ≠ none) :
    (t.modify fresh f ks).valueAt qs ≠ none := by
  rw [valueAt_modify]
  split
  · exact Option.some_ne_none _
  · split
    · exact Option.some_ne_none _
    next hpre => exact h.resolve_left hpre

end Lemmas

section Leaves

variable {A : Type}

omit [DecidableEq K] [LT K] [DecidableLT K]

mutual

/-- The values of the nodes without children, each with what was made of the keys on the way. -/
def foldLeaves (f : A → K → A) (a : A) : Tree K V → List (A × V)
  | node v [] => [(a,v)]
  | node _ (kc :: cs) => foldChildren f a (kc :: cs)

def foldChildren (f : A → K → A) (a : A) : List (K × Tree K V) → List (A × V)
  | [] => []
  | (k,c) :: cs => foldLeaves f (f a k) c ++ foldChildren f a cs

end

mutual

theorem foldLeaves_map {B : Type} (f : A → K → A) (g : B → K → B) (r : A → B)
    (hr : ∀ a k, r (f a k) = g (r a) k) (a : A) : ∀ t : Tree K V,
    foldLeaves g (r a) t = (foldLeaves f a t).map fun av => (r av.1,av.2)
  | node _ [] => rfl
  | node _ (kc :: cs) => foldChildren_map f g r hr a (kc :: cs)

theorem foldChildren_map {B : Type} (f : A → K → A) (g : B → K → B) (r : A → B)
    (hr : ∀ a k, r (f a k) = g (r a) k) (a : A) : ∀ cs : List (K × Tree K V),
    foldChildren g (r a) cs = (foldChildren f a cs).map fun av => (r av.1,av.2)
  | [] => rfl
  | (k,c) :: cs => by
    rw [foldChildren, foldChildren, List.map_append, ← hr, foldLeaves_map f g r hr _ c,
      foldChildren_map f g r hr a cs]

end

/-- The paths of the nodes without children, with their values. -/
def leaves (t : Tree K V) : List (List K × V) := foldLeaves (fun ks k => ks ++ [k]) [] t

theorem foldLeaves_eq (f : A → K → A) (a : A) (t : Tree K V) :
    foldLeaves f a t = (leaves t).map fun kv => (kv.1.foldl f a,kv.2) :=
  foldLeaves_map (fun ks k => ks ++ [k]) f (fun ks => ks.foldl f a)
    (fun _ _ => List.foldl_append) [] t

theorem foldLeaves_ne_nil (f : A → K → A) (a : A) : ∀ t : Tree K V, foldLeaves f a t ≠ []
  | node _ [] => List.cons_ne_nil _ _
  | node _ ((k,c) :: cs) => by
    rw [foldLeaves, foldChildren]
    exact List.append_ne_nil_of_left_ne_nil (foldLeaves_ne_nil f (f a k) c) _

theorem foldChildren_snoc (cs : List (K × Tree K V)) :
    foldChildren (fun ks k => ks ++ [k]) [] cs =
      cs.flatMap fun kc => (leaves kc.2).map fun kv => (kc.1 :: kv.1,kv.2) := by
  induction cs with
  | nil => rfl
  | cons kc cs ih =>
    have hsnoc : ∀ (ks : List K) (k : K), ks.foldl (fun ks k => ks ++ [k]) [k] = k :: ks := by
      intro ks k
      induction ks using List.reverseRecOn with
      | nil => rfl
      | append_singleton ks k' ihk =>
        rw [List.foldl_append, ihk]
        rfl
    rw [foldChildren, ih, List.flatMap_cons, foldLeaves_eq]
    simp only [List.nil_append, hsnoc]

theorem mem_leaves_nil {t : Tree K V} {v : V} :
    ([],v) ∈ leaves t ↔ t.children = [] ∧ t.value = v := by
  obtain ⟨v',cs⟩ := t
  cases cs with
  | nil => simp [leaves, foldLeaves, children, value, eq_comm]
  | cons kc cs => simp [leaves, foldLeaves, foldChildren_snoc, children]

theorem mem_leaves_cons {t : Tree K V} {k : K} {ks : List K} {v : V} :
    (k :: ks,v) ∈ leaves t ↔ ∃ c, (k,c) ∈ t.children ∧ (ks,v) ∈ leaves c := by
  obtain ⟨v',cs⟩ := t
  cases cs with
  | nil => simp [leaves, foldLeaves, children]
  | cons kc cs =>
    rw [leaves, foldLeaves, foldChildren_snoc, List.mem_flatMap]
    constructor
    · rintro ⟨kc',hmem,h⟩
      obtain ⟨kv,hkv,heq⟩ := List.mem_map.mp h
      obtain ⟨⟨rfl,rfl⟩,rfl⟩ := Prod.mk.inj heq
      exact ⟨kc'.2,hmem,hkv⟩
    · rintro ⟨c,hmem,hkv⟩
      exact ⟨(k,c),hmem,List.mem_map.mpr ⟨(ks,v),hkv,rfl⟩⟩

/-- No node has two children of one key. -/
inductive Distinct : Tree K V → Prop where
  | node {v : V} {cs : List (K × Tree K V)} (keys : (cs.map Prod.fst).Nodup)
      (below : ∀ kc ∈ cs, Distinct kc.2) : Distinct (node v cs)

end Leaves

section Distinct

variable {fresh : V} {f : V → V} {t : Tree K V}

omit [LT K] [DecidableLT K] in
theorem Distinct.child_eq_iff (h : Distinct t) (k : K) (c : Tree K V) :
    t.child k = some c ↔ (k,c) ∈ t.children := by
  obtain ⟨keys,-⟩ := h
  rename_i v cs
  rw [child, children]
  induction cs with
  | nil => simp
  | cons kc cs ih =>
    rw [List.map_cons, List.nodup_cons] at keys
    rw [List.lookup_cons, List.mem_cons]
    by_cases hk : k = kc.1
    · subst hk
      rw [beq_self_eq_true]
      constructor
      · intro hc
        exact Or.inl (by rw [← Option.some.inj hc])
      · rintro (heq | hmem)
        · rw [← heq]
        · exact absurd (List.mem_map.mpr ⟨_,hmem,rfl⟩) keys.1
    · rw [beq_false_of_ne hk, ih keys.2]
      constructor
      · exact Or.inr
      · rintro (heq | hmem)
        · exact absurd (congrArg Prod.fst heq) hk
        · exact hmem

omit [DecidableEq K] in
theorem insertNew_perm (k : K) (c : Tree K V) (cs : List (K × Tree K V)) :
    (insertNew k c cs).Perm ((k,c) :: cs) := by
  induction cs with
  | nil => exact List.Perm.refl _
  | cons kc cs ih =>
    rw [insertNew]
    split
    · exact List.Perm.refl _
    · exact (ih.cons kc).trans (List.Perm.swap _ _ _)

theorem distinct_insertChild {v : V} {cs : List (K × Tree K V)} (h : Distinct (node v cs))
    (k : K) {c : Tree K V} (hc : Distinct c) : Distinct (node v (insertChild k c cs)) := by
  obtain ⟨keys,below⟩ := h
  rw [insertChild]
  split
  next hk =>
    have hkeys : (cs.map fun kc => if kc.1 = k then (k,c) else kc).map Prod.fst =
        cs.map Prod.fst := by
      rw [List.map_map]
      apply List.map_congr_left
      intro kc _
      by_cases hkc : kc.1 = k
      · simp [hkc]
      · simp [hkc]
    refine .node (hkeys ▸ keys) ?_
    intro kc hmem
    obtain ⟨kc',hmem',rfl⟩ := List.mem_map.mp hmem
    split
    · exact hc
    · exact below kc' hmem'
  next hk =>
    have hperm := insertNew_perm k c cs
    refine .node ?_ ?_
    · rw [(hperm.map Prod.fst).nodup_iff, List.map_cons, List.nodup_cons]
      exact ⟨hk,keys⟩
    · intro kc hmem
      rcases List.mem_cons.mp (hperm.mem_iff.mp hmem) with rfl | hmem
      · exact hc
      · exact below kc hmem

theorem distinct_modify (h : Distinct t) (ks : List K) : Distinct (t.modify fresh f ks) := by
  induction ks generalizing t with
  | nil =>
    obtain ⟨keys,below⟩ := h
    exact .node keys below
  | cons k ks ih =>
    have hchild := h.child_eq_iff k
    obtain ⟨v,cs⟩ := t
    rw [modify]
    apply distinct_insertChild h
    apply ih
    cases hc : cs.lookup k with
    | none => exact .node List.nodup_nil (List.forall_mem_nil _)
    | some c =>
      obtain ⟨-,below⟩ := h
      exact below (k,c) ((hchild c).mp hc)

omit [LT K] [DecidableLT K] in
theorem Distinct.mem_leaves_iff (h : Distinct t) (ks : List K) (v : V) :
    (ks,v) ∈ leaves t ↔ t.valueAt ks = some v ∧ ∀ k, t.valueAt (ks ++ [k]) = none := by
  induction ks generalizing t with
  | nil =>
    rw [mem_leaves_nil, children_eq_nil_iff, valueAt_nil, Option.some.injEq, and_comm]
    rfl
  | cons k ks ih =>
    rw [mem_leaves_cons]
    simp only [← h.child_eq_iff k, List.cons_append, valueAt_cons]
    cases hc : t.child k with
    | none => simp
    | some c =>
      have hmem := (h.child_eq_iff k c).mp hc
      obtain ⟨-,below⟩ := h
      simp only [Option.some.injEq, exists_eq_left', Option.bind_some]
      exact ih (below (k,c) hmem)

end Distinct

section Holds

variable {fresh : V} {f : V → V} {m : List K → Option V} {t : Tree K V}

omit [LT K] [DecidableLT K]

/-- The tree of a map on paths: its values, and fresh ones on the ways to them. -/
structure Holds (fresh : V) (m : List K → Option V) (t : Tree K V) : Prop where
  there : ∀ ks v, m ks = some v → t.valueAt ks = some v
  way : ∀ qs, m qs = none → (qs = [] ∨ ∃ ks, m ks ≠ none ∧ qs <+: ks) →
    t.valueAt qs = some fresh
  nothing : ∀ qs, qs ≠ [] → (∀ ks, m ks ≠ none → ¬ qs <+: ks) → t.valueAt qs = none

theorem holds_empty : Holds fresh (fun _ => none) (node fresh [] : Tree K V) where
  there ks v h := by cases h
  way qs _ h := by
    rcases h with rfl | ⟨ks,hks,-⟩
    · rfl
    · exact absurd rfl hks
  nothing qs hqs _ := by rw [valueAt_fresh, if_neg hqs]

theorem holds_root :
    Holds fresh (fun ks => if ks = [] then some fresh else none) (node fresh [] : Tree K V) where
  there ks v h := by rwa [valueAt_fresh]
  way qs hqs h := by
    rcases h with rfl | ⟨ks,hks,hpre⟩
    · rfl
    · split at hks
      next hnil =>
        obtain rfl := List.prefix_nil.mp (hnil ▸ hpre)
        rfl
      next => exact absurd rfl hks
  nothing qs hqs _ := by rw [valueAt_fresh, if_neg hqs]

theorem Holds.getD (h : Holds fresh m t) (ks : List K) :
    (t.valueAt ks).getD fresh = (m ks).getD fresh := by
  cases hk : m ks with
  | some v => rw [h.there ks v hk]
  | none =>
    by_cases hway : ks = [] ∨ ∃ ks', m ks' ≠ none ∧ ks <+: ks'
    · rw [h.way ks hk hway]
      rfl
    · rw [not_or, not_exists] at hway
      rw [h.nothing ks hway.1 fun ks' hks' hpre => hway.2 ks' ⟨hks',hpre⟩]

theorem Holds.leaf_iff (h : Holds fresh m t) (hm : ∃ ks, m ks ≠ none) (qs : List K) (v : V) :
    (t.valueAt qs = some v ∧ ∀ k, t.valueAt (qs ++ [k]) = none) ↔
      m qs = some v ∧ ∀ ks, m ks ≠ none → qs <+: ks → ks = qs := by
  constructor
  · rintro ⟨hv,hstop⟩
    have hlast : ∀ ks, m ks ≠ none → qs <+: ks → ks = qs := by
      intro ks hks hpre
      apply eq_of_no_longer hpre
      intro k hmore
      have hk := hstop k
      cases hmk : m (qs ++ [k]) with
      | some w =>
        rw [h.there _ w hmk] at hk
        cases hk
      | none =>
        rw [h.way _ hmk (Or.inr ⟨ks,hks,hmore⟩)] at hk
        cases hk
    refine ⟨?_,hlast⟩
    cases hq : m qs with
    | some w =>
      rw [h.there qs w hq] at hv
      exact hv
    | none =>
      have hno : ∀ ks, m ks ≠ none → ¬ qs <+: ks := by
        intro ks hks hpre
        rw [hlast ks hks hpre] at hks
        exact hks hq
      cases qs with
      | nil =>
        obtain ⟨ks,hks⟩ := hm
        exact absurd List.nil_prefix (hno ks hks)
      | cons q qs =>
        rw [h.nothing _ (List.cons_ne_nil _ _) hno] at hv
        cases hv
  · rintro ⟨hv,hlast⟩
    refine ⟨h.there qs v hv,fun k => ?_⟩
    apply h.nothing _ (by simp)
    intro ks hks hpre
    have hlen := hpre.length_le
    rw [hlast ks hks ((List.prefix_append _ _).trans hpre), List.length_append,
      List.length_singleton] at hlen
    omega

end Holds

section Updates

variable {fresh : V} {f : V → V} {m : List K → Option V} {t : Tree K V}

theorem Holds.modify (h : Holds fresh m t) (f : V → V) (ks : List K) :
    Holds fresh (Function.update m ks (some (f ((m ks).getD fresh)))) (t.modify fresh f ks) where
  there qs v hv := by
    rw [valueAt_modify]
    by_cases hq : qs = ks
    · rw [hq, Function.update_self] at hv
      rw [if_pos hq, h.getD, hv]
    · rw [Function.update_of_ne hq] at hv
      rw [if_neg hq, h.there qs v hv]
      split <;> rfl
  way qs hqs hway := by
    rw [valueAt_modify]
    by_cases hq : qs = ks
    · rw [hq, Function.update_self] at hqs
      cases hqs
    · rw [Function.update_of_ne hq] at hqs
      rw [if_neg hq]
      split
      next => rw [h.getD, hqs]; rfl
      next hpre =>
        apply h.way qs hqs
        refine hway.imp_right ?_
        rintro ⟨ks',hks',hpre'⟩
        refine ⟨ks',?_,hpre'⟩
        rw [Function.update_of_ne] at hks'
        · exact hks'
        · rintro rfl
          exact hpre hpre'
  nothing qs hqs hno := by
    have hpre : ¬ qs <+: ks := by
      apply hno ks
      rw [Function.update_self]
      exact Option.some_ne_none _
    have hq : qs ≠ ks := by
      rintro rfl
      exact hpre List.prefix_rfl
    rw [valueAt_modify, if_neg hq, if_neg hpre]
    apply h.nothing qs hqs
    intro ks' hks'
    apply hno
    by_cases hk : ks' = ks
    · rw [hk, Function.update_self]
      exact Option.some_ne_none _
    · rwa [Function.update_of_ne hk]

def updates (l : List (List K × V)) (m : List K → Option V) : List K → Option V :=
  l.foldl (fun m kv => Function.update m kv.1 (some kv.2)) m

theorem Holds.updates (h : Holds fresh m t) (l : List (List K × V)) :
    Holds fresh (Tree.updates l m)
      (l.foldl (fun t kv => t.modify fresh (fun _ => kv.2) kv.1) t) := by
  induction l generalizing m t with
  | nil => exact h
  | cons kv l ih => exact ih (h.modify (fun _ => kv.2) kv.1)

omit [LT K] [DecidableLT K] in
theorem updates_of_not_mem {l : List (List K × V)} {ks : List K} (h : ∀ kv ∈ l, kv.1 ≠ ks) :
    updates l m ks = m ks := by
  induction l generalizing m with
  | nil => rfl
  | cons kv l ih =>
    rw [List.forall_mem_cons] at h
    rw [updates, List.foldl_cons]
    exact (ih h.2).trans (Function.update_of_ne (Ne.symm h.1) _ _)

omit [LT K] [DecidableLT K] in
/-- Updates that do not contradict each other are all there in the end. -/
theorem updates_of_mem {l : List (List K × V)} {ks : List K} {v : V}
    (hin : ∃ kv ∈ l, kv.1 = ks) (h : ∀ kv ∈ l, kv.1 = ks → kv.2 = v) :
    updates l m ks = some v := by
  induction l generalizing m with
  | nil =>
    obtain ⟨kv,hkv,-⟩ := hin
    cases hkv
  | cons kv l ih =>
    rw [List.forall_mem_cons] at h
    by_cases hl : ∃ kv ∈ l, kv.1 = ks
    · exact ih hl h.2
    · have hkv : kv.1 = ks := by
        obtain ⟨kv',hmem,hk⟩ := hin
        rcases List.mem_cons.mp hmem with rfl | hmem
        · exact hk
        · exact absurd ⟨kv',hmem,hk⟩ hl
      rw [updates, List.foldl_cons]
      refine (updates_of_not_mem fun kv' hmem hk => hl ⟨kv',hmem,hk⟩).trans ?_
      rw [hkv, Function.update_self, h.1 hkv]

end Updates

end Tree

end WdHttp.PathTree
