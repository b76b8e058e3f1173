import WdHttp.RouteTable

/-!
# Routes without parameters

In a table whose keys are no patterns, but for a star of its own at the end of a path, a request
goes down by its pieces. When no route takes it there, the star nearest to its path does. The
answer is told by the map of the registered paths alone.
-/

set_option autoImplicit false

namespace WdHttp.PlainRoutes
open WdHttp.PosixFile WdHttp.StrUtil WdHttp.PathTree WdHttp.RouteTable

variable {H : Type}

/-- A key that is no pattern: without a star at its end and without braces. The key of the route
`/` is left out as well, since it holds a slash. -/
structure Static (key : Bytes) : Prop where
  star : endsWith key starByte = false
  param : isParam key = false
  slash : slash ∉ key

instance (key : Bytes) : Decidable (Static key) :=
  decidable_of_iff (endsWith key starByte = false ∧ isParam key = false ∧
    StrUtil.slash ∉ key) ⟨fun h => ⟨h.1,h.2.1,h.2.2⟩,fun h => ⟨h.1,h.2,h.3⟩⟩

theorem not_static_star : ¬ Static [starByte] := fun h => absurd h.star (by decide)

theorem not_static_slash : ¬ Static [slash] := fun h => h.slash List.mem_cons_self

/-- All keys are of a kind, but the last one may be a star. -/
def Starred (p : Bytes → Prop) : List Bytes → Prop
  | [] => True
  | k :: ks => p k ∧ Starred p ks ∨ k = [starByte] ∧ ks = []

def decideStarred (p : Bytes → Prop) [DecidablePred p] : ∀ ks, Decidable (Starred p ks)
  | [] => isTrue trivial
  | k :: ks =>
    have := decideStarred p ks
    inferInstanceAs (Decidable (p k ∧ Starred p ks ∨ k = [starByte] ∧ ks = []))

instance (p : Bytes → Prop) [DecidablePred p] (ks : List Bytes) : Decidable (Starred p ks) :=
  decideStarred p ks

section Starred

variable {p p' : Bytes → Prop} {ks qs P : List Bytes}

theorem starred_of_forall (h : ∀ k ∈ ks, p k) : Starred p ks := by
  induction ks with
  | nil => trivial
  | cons k ks ih =>
    rw [List.forall_mem_cons] at h
    exact Or.inl ⟨h.1,ih h.2⟩

theorem Starred.append (hP : ∀ k ∈ P, p k) (h : Starred p ks) : Starred p (P ++ ks) := by
  induction P with
  | nil => exact h
  | cons k P ih =>
    rw [List.forall_mem_cons] at hP
    exact Or.inl ⟨hP.1,ih hP.2⟩

theorem Starred.mono (hp : ∀ k, p k → p' k) (h : Starred p ks) : Starred p' ks := by
  induction ks with
  | nil => trivial
  | cons k ks ih => exact h.imp (And.imp (hp k) ih) id

theorem Starred.shorter (hq : qs <+: ks) (h : Starred p ks) : Starred p qs := by
  induction ks generalizing qs with
  | nil => exact (List.prefix_nil.mp hq) ▸ h
  | cons k ks ih =>
    rcases List.prefix_cons_iff.mp hq with rfl | ⟨qs,rfl,hpre⟩
    · trivial
    · rcases h with ⟨hk,h⟩ | ⟨hk,rfl⟩
      · exact Or.inl ⟨hk,ih hpre h⟩
      · exact Or.inr ⟨hk,List.prefix_nil.mp hpre⟩

theorem Starred.mem (h : Starred p ks) {k : Bytes} (hk : k ∈ ks) : p k ∨ k = [starByte] := by
  induction ks with
  | nil => cases hk
  | cons k' ks ih =>
    rcases h with ⟨hk',h⟩ | ⟨hk',rfl⟩
    · rcases List.mem_cons.mp hk with rfl | hk
      · exact Or.inl hk'
      · exact ih h hk
    · exact Or.inr (List.mem_singleton.mp hk ▸ hk')

theorem Starred.star_last (hp : ¬ p [starByte]) (h : Starred p (P ++ [starByte] :: ks)) : ks = [] := by
  induction P with
  | nil => exact h.elim (fun hk => absurd hk.1 hp) And.right
  | cons k P ih =>
    rcases h with ⟨-,h⟩ | ⟨-,hnil⟩
    · exact ih h
    · exact absurd hnil (by simp)

end Starred

section Search

def StarredTree (t : RouteTableNode H) : Prop := ∀ qs, t.valueAt qs ≠ none → Starred Static qs

variable {t c : RouteTableNode H}

theorem StarredTree.child {k : Bytes} (h : StarredTree t) (hc : t.child k = some c) :
    StarredTree c := by
  intro qs hqs
  rcases h (k :: qs) (by rwa [valueAt_child hc]) with ⟨-,hqs⟩ | ⟨-,rfl⟩
  · exact hqs
  · trivial

theorem StarredTree.key {k : Bytes} (h : StarredTree t) (hk : t.child k ≠ none) :
    Static k ∨ k = [starByte] := by
  obtain ⟨c,hc⟩ := Option.ne_none_iff_exists'.mp hk
  apply (h [k] _).mem List.mem_cons_self
  rw [valueAt_child hc]
  exact Option.some_ne_none _

def descend : List Bytes → RouteTableNode H → Option (VerbHandler H)
  | [], n => if n.value.verbHandlerMap ≠ [] ∨ n.children = [] then some n.value else none
  | mid :: rest, n =>
    if n.children = [] then some n.value else (n.child mid).bind (descend rest)

/-- The text behind the place of a star. -/
def behind (cut : Bytes) : List Bytes → Bytes
  | [] => []
  | mid :: rest => mid ++ cText (restText rest ++ cut)

/-- A search that has found nothing falls to a star. -/
def orStar (cut : Bytes) (params : Params) (found : Option (VerbHandler H))
    (starred : Option (VerbHandler H × List Bytes)) : Search H :=
  match found, starred with
  | some vh, _ => ⟨some vh,params,[]⟩
  | none, some (vh,rest) => ⟨some vh,params,behind cut rest⟩
  | none, none => ⟨none,params,[]⟩

theorem isWildcard_star (mid : Bytes) : isWildcard [starByte] mid = true := by
  rw [isWildcard, Bool.and_eq_true]
  refine ⟨by decide,?_⟩
  exact List.isPrefixOf_iff_prefix.mpr List.nil_prefix

theorem StarredTree.orPattern (h : StarredTree t) (mid text : Bytes) (params : Params)
    (go : RouteTableNode H → Params → Option (Search H)) :
    orPattern ⟨none,params,[]⟩ t mid text go =
      some ((t.child [starByte]).elim ⟨none,params,[]⟩ fun c => ⟨some c.value,params,mid ++ text⟩) := by
  have hpattern : ∀ kv ∈ t.children, (isWildcard kv.1 mid || isParam kv.1) = true →
      kv.1 = [starByte] := by
    intro kv hkv hp
    rcases h.key (Tree.child_of_mem hkv) with hs | hk
    · simp [isWildcard, hs.star, hs.param] at hp
    · exact hk
  rw [RouteTable.orPattern]
  dsimp only
  cases hf : t.children.find? fun kv => isWildcard kv.1 mid || isParam kv.1 with
  | none =>
    have hno : t.child [starByte] = none := by
      by_contra hne
      obtain ⟨c,hc⟩ := Option.ne_none_iff_exists'.mp hne
      have hstar := List.find?_eq_none.mp hf ([starByte],c) (Tree.mem_of_child hc)
      rw [isWildcard_star] at hstar
      exact absurd rfl hstar
    rw [hno]
    rfl
  | some kv =>
    have hc := Tree.child_of_find? (p := fun k => isWildcard k mid || isParam k) hf
    have hkey : kv.1 = [starByte] :=
      hpattern kv (List.mem_of_find?_eq_some hf) (by simpa using List.find?_some hf)
    rw [hkey] at hc
    dsimp only
    rw [if_pos (hkey ▸ isWildcard_star mid), hc]
    rfl

/-- The search in a tree without patterns but stars: what is found on the way down by the pieces
comes first, then the nearest star. -/
theorem find_starred (cut : Bytes) (atRoot : Bool) (ps : List Bytes) (t : RouteTableNode H)
    (h : StarredTree t) (params : Params) :
    find cut atRoot ps t params =
      some (orStar cut params (descend ps t) (t.nearest [starByte] ps)) := by
  induction ps generalizing atRoot t params with
  | nil =>
    rw [find, descend, Tree.nearest]
    split
    · rfl
    · cases t.child [starByte] <;> rfl
  | cons mid rest ih =>
    have hslash : t.child [slash] = none := by
      by_contra hne
      rcases h.key hne with hs | hk
      · exact not_static_slash hs
      · exact absurd hk (by decide)
    have hstar : (t.child mid).bind (Tree.nearest [starByte] rest) = none →
        orPattern ⟨none,params,[]⟩ t mid (cText (restText rest ++ cut)) (find cut false rest) =
          some (orStar cut params none (t.nearest [starByte] (mid :: rest))) := by
      intro hno
      rw [h.orPattern, Tree.nearest, hno, Option.none_or]
      cases t.child [starByte] <;> rfl
    rw [find, descend]
    split
    · rfl
    · simp only [hslash, orBelow_none, ite_self, Option.bind_some]
      cases hc : t.child mid with
      | none =>
        rw [orBelow_none, Option.bind_none]
        exact hstar (by rw [hc, Option.bind_none])
      | some c =>
        rw [orBelow_some rfl, ih false c (h.child hc) params, Option.bind_some, Option.bind_some]
        cases descend rest c with
        | some vh => rfl
        | none =>
          cases hnear : c.nearest [starByte] rest with
          | some vr =>
            rw [Tree.nearest, hc, Option.bind_some, hnear]
            rfl
          | none => exact hstar (by rw [hc, Option.bind_some, hnear])

/-- The way of a path meets a node that goes on nowhere. -/
def Stops (t : RouteTableNode H) (ps : List Bytes) (v : VerbHandler H) : Prop :=
  ∃ q r, ps = q ++ r ∧ t.valueAt q = some v ∧ ∀ k, t.valueAt (q ++ [k]) = none

theorem stops_nil_iff {t : RouteTableNode H} {v : VerbHandler H} :
    Stops t [] v ↔ t.value = v ∧ t.children = [] := by
  rw [Tree.children_eq_nil_iff]
  constructor
  · rintro ⟨q,r,hqr,hv,hleaf⟩
    obtain ⟨rfl,-⟩ := List.append_eq_nil_iff.mp hqr.symm
    exact ⟨Option.some.inj hv,hleaf⟩
  · rintro ⟨rfl,hleaf⟩
    exact ⟨[],[],rfl,rfl,hleaf⟩

theorem stops_leaf_iff {t : RouteTableNode H} {v : VerbHandler H} (hcs : t.children = [])
    (ps : List Bytes) : Stops t ps v ↔ t.value = v := by
  constructor
  · rintro ⟨q,r,-,hv,-⟩
    cases q with
    | nil => exact Option.some.inj hv
    | cons k q =>
      rw [Tree.valueAt_cons, Tree.child, hcs] at hv
      cases hv
  · rintro rfl
    exact ⟨[],ps,rfl,rfl,Tree.children_eq_nil_iff.mp hcs⟩

theorem stops_cons_iff {t : RouteTableNode H} {v : VerbHandler H} (hcs : t.children ≠ [])
    (mid : Bytes) (rest : List Bytes) :
    Stops t (mid :: rest) v ↔ ∃ c, t.child mid = some c ∧ Stops c rest v := by
  have hbelow : ∀ {c}, t.child mid = some c → ∀ ks, t.valueAt (mid :: ks) = c.valueAt ks := by
    intro c hc ks
    rw [Tree.valueAt_cons, hc]
    rfl
  constructor
  · rintro ⟨q,r,hqr,hv,hleaf⟩
    cases q with
    | nil => exact absurd (Tree.children_eq_nil_iff.mpr hleaf) hcs
    | cons k q =>
      obtain ⟨rfl,rfl⟩ := List.cons.inj hqr
      cases hc : t.child mid with
      | none =>
        rw [Tree.valueAt_cons, hc] at hv
        cases hv
      | some c =>
        exact ⟨c,rfl,q,r,rfl,(hbelow hc q).symm.trans hv,
          fun k => (hbelow hc (q ++ [k])).symm.trans (hleaf k)⟩
  · rintro ⟨c,hc,q,r,rfl,hv,hleaf⟩
    exact ⟨mid :: q,r,rfl,(hbelow hc q).trans hv,fun k => (hbelow hc (q ++ [k])).trans (hleaf k)⟩

theorem descend_eq_some_iff (ps : List Bytes) (t : RouteTableNode H) (v : VerbHandler H) :
    descend ps t = some v ↔ (t.valueAt ps = some v ∧ v.verbHandlerMap ≠ []) ∨ Stops t ps v := by
  induction ps generalizing t with
  | nil =>
    rw [descend, stops_nil_iff, Tree.valueAt_nil, Option.some.injEq]
    constructor
    · intro h
      split at h
      next hor =>
        obtain rfl := Option.some.inj h
        exact hor.imp (fun hmap => ⟨rfl,hmap⟩) fun hcs => ⟨rfl,hcs⟩
      next => cases h
    · rintro (⟨rfl,hmap⟩ | ⟨rfl,hcs⟩)
      · exact if_pos (Or.inl hmap)
      · exact if_pos (Or.inr hcs)
  | cons mid rest ih =>
    rw [descend, Tree.valueAt_cons]
    by_cases hcs : t.children = []
    · rw [if_pos hcs, stops_leaf_iff hcs, Option.some.injEq, Tree.child, hcs]
      exact (or_iff_right fun h => Option.some_ne_none v h.1.symm).symm
    · rw [if_neg hcs, stops_cons_iff hcs]
      cases hc : t.child mid with
      | none => simp
      | some c => simp [ih c]

end Search

section Maps

/-- What is registered at each path. -/
abbrev Routes (H : Type) := List Bytes → Option (VerbHandler H)

variable {m : Routes H} {t : RouteTableNode H}

/-- Nothing is registered further on. -/
def Last (m : Routes H) (ks : List Bytes) : Prop := ∀ ks', m ks' ≠ none → ks <+: ks' → ks' = ks

/-- A path takes the request for itself when it has a handler, and every request below it when
nothing else is registered there. -/
def Takes (m : Routes H) (ks : List Bytes) (vh : VerbHandler H) (target : List Bytes) : Prop :=
  m ks = some vh ∧ (target = ks ∧ vh.verbHandlerMap ≠ [] ∨ ks <+: target ∧ Last m ks)

/-- The star whose path is the longest of those that are prefixes of the request's. -/
structure Nearest (m : Routes H) (P rest : List Bytes) (vh : VerbHandler H)
    (target : List Bytes) : Prop where
  below : target = P ++ rest
  there : m (P ++ [[starByte]]) = some vh
  longest : ∀ Q, Q <+: target → m (Q ++ [[starByte]]) ≠ none → Q <+: P

/-- The tree of a map whose keys are no patterns but stars. -/
structure Routed (m : Routes H) (t : RouteTableNode H) : Prop where
  holds : t.Holds noHandler m
  filled : ∃ ks, m ks ≠ none
  keys : ∀ ks, m ks ≠ none → Starred Static ks

theorem Routed.starredTree (h : Routed m t) : StarredTree t := by
  intro qs hqs
  by_contra hno
  apply hqs
  apply h.holds.nothing qs
  · rintro rfl
    exact hno trivial
  · intro ks hks hpre
    exact hno ((h.keys ks hks).shorter hpre)

theorem Routed.descend_iff (h : Routed m t) (ps : List Bytes) (vh : VerbHandler H) :
    descend ps t = some vh ↔ ∃ ks, Takes m ks vh ps := by
  rw [descend_eq_some_iff]
  constructor
  · rintro (⟨hv,hmap⟩ | ⟨q,r,rfl,hleaf⟩)
    · refine ⟨ps,?_,Or.inl ⟨rfl,hmap⟩⟩
      have hget := h.holds.getD ps
      rw [hv] at hget
      cases hmp : m ps with
      | some w =>
        rw [hmp] at hget
        exact congrArg Option.some hget.symm
      | none =>
        rw [hmp] at hget
        rw [show vh = noHandler from hget] at hmap
        exact absurd rfl hmap
    · obtain ⟨hv,hlast⟩ := (h.holds.leaf_iff h.filled q vh).mp hleaf
      exact ⟨q,hv,Or.inr ⟨List.prefix_append _ _,hlast⟩⟩
  · rintro ⟨ks,hv,⟨rfl,hmap⟩ | ⟨⟨r,hr⟩,hlast⟩⟩
    · exact Or.inl ⟨h.holds.there _ _ hv,hmap⟩
    · exact Or.inr ⟨ks,r,hr.symm,(h.holds.leaf_iff h.filled ks vh).mpr ⟨hv,hlast⟩⟩

theorem Routed.valueAt_star (h : Routed m t) (P : List Bytes) :
    t.valueAt (P ++ [[starByte]]) = m (P ++ [[starByte]]) := by
  cases hm : m (P ++ [[starByte]]) with
  | some vh => exact h.holds.there _ _ hm
  | none =>
    apply h.holds.nothing _ (by simp)
    rintro ks hks ⟨r,rfl⟩
    have hkey := h.keys _ hks
    rw [List.append_assoc] at hkey
    obtain rfl := hkey.star_last not_static_star
    rw [List.append_nil] at hks
    exact hks hm

theorem Routed.nearest_iff (h : Routed m t) (ps rest : List Bytes) (vh : VerbHandler H) :
    t.nearest [starByte] ps = some (vh,rest) ↔ ∃ P, Nearest m P rest vh ps := by
  rw [Tree.nearest_eq_some_iff]
  simp only [h.valueAt_star]
  constructor
  · rintro ⟨P,hbelow,hthere,hlongest⟩
    exact ⟨P,hbelow,hthere,hlongest⟩
  · rintro ⟨P,hp⟩
    exact ⟨P,hp.below,hp.there,hp.longest⟩

/-- The answer of a handler to a verb. -/
def reply (vh : VerbHandler H) (verb : Verb) (matchPath : Bytes) : Reply H :=
  (vh.pick verb).elim .verbNotImplment fun h => .handled h vh.path [] matchPath

theorem Routed.call_eq (h : Routed m t) (verb : Verb) (path : Bytes) :
    call t verb path =
      match descend (target path) t, t.nearest [starByte] (target path) with
      | some vh, _ => reply vh verb []
      | none, some (vh,rest) => reply vh verb (behind (cutSlash path).2 rest)
      | none, none => .notFound := by
  rw [call, find_starred _ _ _ _ h.starredTree]
  dsimp only
  cases descend (target path) t with
  | some vh =>
    simp only [orStar, reply]
    cases vh.pick verb <;> rfl
  | none =>
    cases t.nearest [starByte] (target path) with
    | none => rfl
    | some vr =>
      simp only [orStar, reply]
      cases vr.1.pick verb <;> rfl

/-- What a request is answered with, in terms of the map alone: by the path that takes it, else
by the nearest star. -/
theorem Routed.call_spec (h : Routed m t) (verb : Verb) (path : Bytes) :
    (∀ ks vh, Takes m ks vh (target path) → call t verb path = reply vh verb []) ∧
    ((∀ ks vh, ¬ Takes m ks vh (target path)) →
      (∀ P rest vh, Nearest m P rest vh (target path) →
        call t verb path = reply vh verb (behind (cutSlash path).2 rest)) ∧
      ((∀ P, P <+: target path → m (P ++ [[starByte]]) = none) → call t verb path = .notFound)) := by
  rw [h.call_eq]
  refine ⟨fun ks vh hto => ?_,fun hno => ?_⟩
  · rw [(h.descend_iff _ _).mpr ⟨ks,hto⟩]
  · have hnone : descend (target path) t = none := by
      rw [Option.eq_none_iff_forall_ne_some]
      intro vh hvh
      obtain ⟨ks,hto⟩ := (h.descend_iff _ _).mp hvh
      exact hno ks vh hto
    rw [hnone]
    refine ⟨fun P rest vh hnear => ?_,fun hstar => ?_⟩
    · rw [(h.nearest_iff _ _ _).mpr ⟨P,hnear⟩]
    · have hnear : t.nearest [starByte] (target path) = none := by
        rw [Tree.nearest_eq_none_iff]
        intro P hP
        rw [h.valueAt_star, hstar P hP]
      rw [hnear]

end Maps

section Entries

variable {rs : List (Route H)}

/-- What was registered under a path, the routes taken one after another. -/
def entry (rs : List (Route H)) (ks : List Bytes) : VerbHandler H :=
  rs.foldl (fun vh r => if r.key = ks then vh.enter r.route r.handler r.verb else vh) noHandler

theorem entry_snoc (rs : List (Route H)) (r : Route H) (ks : List Bytes) :
    entry (rs ++ [r]) ks =
      if r.key = ks then (entry rs ks).enter r.route r.handler r.verb else entry rs ks := by
  rw [entry, List.foldl_append]
  rfl

theorem entry_none {ks : List Bytes} (h : ∀ r ∈ rs, r.key ≠ ks) : entry rs ks = noHandler := by
  induction rs using List.reverseRecOn with
  | nil => rfl
  | append_singleton rs r ih =>
    rw [List.forall_mem_append, List.forall_mem_singleton] at h
    rw [entry_snoc, if_neg h.2, ih h.1]

theorem lookup_entry (ks : List Bytes) (v : Verb) :
    (entry rs ks).verbHandlerMap.lookup v =
      (rs.find? fun r => r.key = ks ∧ r.verb = v).map Route.handler := by
  induction rs using List.reverseRecOn with
  | nil => rfl
  | append_singleton rs r ih =>
    rw [entry_snoc, List.find?_append, Option.map_or, ← ih]
    by_cases hk : r.key = ks
    · rw [if_pos hk, lookup_enter]
      congr 1
      by_cases hv : r.verb = v
      · rw [if_pos hv, List.find?_cons_of_pos (by simp [hk, hv])]
        rfl
      · rw [if_neg hv, List.find?_cons_of_neg (by simp [hv])]
        rfl
    · rw [if_neg hk, List.find?_cons_of_neg (by simp [hk])]
      exact (Option.or_none).symm

theorem entry_map_ne_nil_iff (ks : List Bytes) :
    (entry rs ks).verbHandlerMap ≠ [] ↔ ∃ r ∈ rs, r.key = ks := by
  constructor
  · intro h
    by_contra hno
    rw [entry_none fun r hr hk => hno ⟨r,hr,hk⟩] at h
    exact h rfl
  · rintro ⟨r,hr,hk⟩ hnil
    have hlook := @lookup_entry H rs ks r.verb
    rw [hnil, List.lookup_nil, eq_comm, Option.map_eq_none_iff, List.find?_eq_none] at hlook
    exact hlook r hr (by simp [hk])

theorem entry_path {ks : List Bytes} (h : ∃ r ∈ rs, r.key = ks) :
    ∃ r ∈ rs, r.key = ks ∧ (entry rs ks).path = r.route := by
  induction rs using List.reverseRecOn with
  | nil =>
    obtain ⟨r,hr,-⟩ := h
    cases hr
  | append_singleton rs r ih =>
    have hlast : r ∈ rs ++ [r] := List.mem_append_right _ List.mem_cons_self
    rw [entry_snoc]
    by_cases hold : ∃ r ∈ rs, r.key = ks
    · obtain ⟨r',hr',hk',hp⟩ := ih hold
      have hr'' : r' ∈ rs ++ [r] := List.mem_append_left _ hr'
      split
      next hk =>
        rw [VerbHandler.enter]
        split
        · exact ⟨r',hr'',hk',hp⟩
        · exact ⟨r,hlast,hk,rfl⟩
      next => exact ⟨r',hr'',hk',hp⟩
    · have hk : r.key = ks := by
        obtain ⟨r',hr',hk'⟩ := h
        rcases List.mem_append.mp hr' with hr' | hr'
        · exact absurd ⟨r',hr',hk'⟩ hold
        · exact List.mem_singleton.mp hr' ▸ hk'
      rw [if_pos hk, entry_none fun r' hr' hk' => hold ⟨r',hr',hk'⟩]
      exact ⟨r,hlast,hk,rfl⟩

/-- What is registered under a path, if something is. -/
def registered (rs : List (Route H)) (ks : List Bytes) : Option (VerbHandler H) :=
  if ∃ r ∈ rs, r.key = ks then some (entry rs ks) else none

theorem registered_getD (ks : List Bytes) :
    (registered rs ks).getD noHandler = entry rs ks := by
  rw [registered]
  split
  next => rfl
  next hno => exact (entry_none fun r hr hk => hno ⟨r,hr,hk⟩).symm

theorem registered_ne_none {ks : List Bytes} : registered rs ks ≠ none ↔ ∃ r ∈ rs, r.key = ks := by
  rw [registered]
  split
  next h => exact ⟨fun _ => h,fun _ => Option.some_ne_none _⟩
  next h => exact ⟨fun hne => absurd rfl hne,fun h' => absurd h' h⟩

theorem registered_snoc (rs : List (Route H)) (r : Route H) :
    registered (rs ++ [r]) = Function.update (registered rs) r.key
      (some ((entry rs r.key).enter r.route r.handler r.verb)) := by
  funext ks
  rw [registered, entry_snoc]
  by_cases hk : r.key = ks
  · rw [if_pos ⟨r,List.mem_append_right _ List.mem_cons_self,hk⟩, if_pos hk, ← hk,
      Function.update_self]
  · rw [if_neg hk, Function.update_of_ne (Ne.symm hk), registered]
    simp [hk]

theorem holds_table (h : ∀ r ∈ rs, cText r.route ≠ [slash]) :
    (table rs).Holds noHandler (registered rs) := by
  induction rs using List.reverseRecOn with
  | nil => exact Tree.holds_empty
  | append_singleton rs r ih =>
    rw [List.forall_mem_append, List.forall_mem_singleton] at h
    have hkey : routePieces (cText r.route) = r.key := (if_neg h.2).symm
    rw [table_snoc, handle, findOrCreate, if_neg h.2, hkey, registered_snoc, ← registered_getD]
    exact (ih h.1).modify _ _

end Entries

section Requests

variable {rs : List (Route H)}

/-- A registered path takes the request for itself, and every request below it when no route
goes on there. -/
def Serves (rs : List (Route H)) (ks target : List Bytes) : Prop :=
  (∃ r ∈ rs, r.key = ks) ∧
    (target = ks ∨ ks <+: target ∧ ∀ r ∈ rs, ks <+: r.key → r.key = ks)

instance (rs : List (Route H)) (ks target : List Bytes) : Decidable (Serves rs ks target) :=
  inferInstanceAs (Decidable (_ ∧ _))

/-- The first handler of the verb, else the first one for any verb. -/
def chosen (rs : List (Route H)) (ks : List Bytes) (verb : Verb) : Option H :=
  ((rs.find? fun r => r.key = ks ∧ r.verb = verb).map Route.handler).or
    ((rs.find? fun r => r.key = ks ∧ r.verb = .ANY).map Route.handler)

theorem route_ne_slash {r : Route H} (h : ∀ k ∈ r.key, Static k) : cText r.route ≠ [slash] := by
  intro hroute
  have hkey : r.key = [[slash]] := if_pos hroute
  exact not_static_slash (h [slash] (hkey ▸ List.mem_cons_self))

theorem routed_table (hne : rs ≠ []) (hs : ∀ r ∈ rs, ∀ k ∈ r.key, Static k) :
    Routed (registered rs) (table rs) where
  holds := holds_table fun r hr => route_ne_slash (hs r hr)
  filled := by
    obtain ⟨r,hr⟩ := List.exists_mem_of_ne_nil rs hne
    exact ⟨r.key,registered_ne_none.mpr ⟨r,hr,rfl⟩⟩
  keys ks hks := by
    obtain ⟨r,hr,rfl⟩ := registered_ne_none.mp hks
    exact starred_of_forall (hs r hr)

theorem registered_eq_some_iff {ks : List Bytes} {vh : VerbHandler H} :
    registered rs ks = some vh ↔ (∃ r ∈ rs, r.key = ks) ∧ entry rs ks = vh := by
  rw [registered]
  split
  next h => rw [Option.some.injEq, and_iff_right h]
  next h => exact ⟨fun hv => (nomatch hv),fun hv => absurd hv.1 h⟩

theorem takes_registered_iff (ks : List Bytes) (vh : VerbHandler H) (ps : List Bytes) :
    Takes (registered rs) ks vh ps ↔ Serves rs ks ps ∧ entry rs ks = vh := by
  rw [Takes, registered_eq_some_iff, Serves, and_right_comm, and_congr_left_iff]
  rintro rfl
  apply and_congr_right
  intro hks
  have hlast : Last (registered rs) ks ↔ ∀ r ∈ rs, ks <+: r.key → r.key = ks := by
    constructor
    · intro h r hr
      exact h r.key (registered_ne_none.mpr ⟨r,hr,rfl⟩)
    · intro h ks' hks'
      obtain ⟨r,hr,rfl⟩ := registered_ne_none.mp hks'
      exact h r hr
  rw [and_iff_left ((entry_map_ne_nil_iff ks).mpr hks), hlast]

theorem pick_entry (ks : List Bytes) (verb : Verb) :
    (entry rs ks).pick verb = chosen rs ks verb := by
  rw [VerbHandler.pick, lookup_entry, lookup_entry, ← chosen]

theorem call_serves (hne : rs ≠ []) (hs : ∀ r ∈ rs, ∀ k ∈ r.key, Static k) (verb : Verb)
    (path : Bytes) :
    (∀ ks, Serves rs ks (target path) → call (table rs) verb path =
      (chosen rs ks verb).elim .verbNotImplment fun h => .handled h (entry rs ks).path [] []) ∧
    ((∀ ks, ¬ Serves rs ks (target path)) → call (table rs) verb path = .notFound) := by
  obtain ⟨htakes,hnone⟩ := (routed_table hne hs).call_spec verb path
  simp only [takes_registered_iff] at htakes hnone
  refine ⟨fun ks hks => ?_,fun hno => (hnone fun ks vh h => hno ks h.1).2 fun P _ => ?_⟩
  · rw [htakes ks _ ⟨hks,rfl⟩, reply, pick_entry]
  · by_contra hstar
    obtain ⟨r,hr,hkey⟩ := registered_ne_none.mp hstar
    refine not_static_star (hs r hr [starByte] ?_)
    rw [hkey]
    exact List.mem_append_right _ List.mem_cons_self

theorem call_handled_iff (hne : rs ≠ []) (hs : ∀ r ∈ rs, ∀ k ∈ r.key, Static k) (verb : Verb)
    (path : Bytes) (h : H) (p : Bytes) (params : Params) (m : Bytes) :
    call (table rs) verb path = .handled h p params m ↔
      params = [] ∧ m = [] ∧ ∃ ks, Serves rs ks (target path) ∧ chosen rs ks verb = some h ∧
        (entry rs ks).path = p := by
  obtain ⟨hserves,hnone⟩ := call_serves hne hs verb path
  constructor
  · intro hcall
    by_cases hex : ∃ ks, Serves rs ks (target path)
    · obtain ⟨ks,hks⟩ := hex
      rw [hserves ks hks] at hcall
      cases hc : chosen rs ks verb with
      | none =>
        rw [hc] at hcall
        cases hcall
      | some h' =>
        rw [hc] at hcall
        cases hcall
        exact ⟨rfl,rfl,ks,hks,hc,rfl⟩
    · rw [hnone fun ks hks => hex ⟨ks,hks⟩] at hcall
      cases hcall
  · rintro ⟨rfl,rfl,ks,hks,hc,rfl⟩
    rw [hserves ks hks, hc]
    rfl

/-- The route table in terms of the registered routes: a request is answered by the first
handler registered for its verb where its path is served; a verb without a handler there and
a path that nothing serves are told apart. -/
theorem call_table (hne : rs ≠ []) (hs : ∀ r ∈ rs, ∀ k ∈ r.key, Static k) (verb : Verb)
    (path : Bytes) :
    (∀ h p params m, call (table rs) verb path = .handled h p params m ↔
      params = [] ∧ m = [] ∧ ∃ ks, Serves rs ks (target path) ∧ chosen rs ks verb = some h ∧
        (entry rs ks).path = p) ∧
    (call (table rs) verb path = .verbNotImplment ↔
      ∃ ks, Serves rs ks (target path) ∧ chosen rs ks verb = none) ∧
    (call (table rs) verb path = .notFound ↔ ∀ ks, ¬ Serves rs ks (target path)) := by
  obtain ⟨hserves,hnone⟩ := call_serves hne hs verb path
  refine ⟨call_handled_iff hne hs verb path,⟨fun hcall => ?_,?_⟩,⟨fun hcall ks hks => ?_,hnone⟩⟩
  · by_cases hex : ∃ ks, Serves rs ks (target path)
    · obtain ⟨ks,hks⟩ := hex
      refine ⟨ks,hks,?_⟩
      rw [hserves ks hks] at hcall
      cases hc : chosen rs ks verb with
      | none => rfl
      | some h =>
        rw [hc] at hcall
        cases hcall
    · rw [hnone fun ks hks => hex ⟨ks,hks⟩] at hcall
      cases hcall
  · rintro ⟨ks,hks,hc⟩
    rw [hserves ks hks, hc]
    rfl
  · rw [hserves ks hks] at hcall
    cases hc : chosen rs ks verb <;> rw [hc] at hcall <;> cases hcall

def plainRoutes : List (Route ℕ) := [⟨.GET,ascii "/a",0⟩,⟨.ANY,ascii "/a/b/",1⟩]

theorem call_table_plain :
    call (table plainRoutes) .POST (ascii "/a/b/c") = .handled 1 (ascii "/a/b/") [] [] :=
  ((call_table (by decide) (by decide) .POST (ascii "/a/b/c")).1 1 _ [] []).mpr
    ⟨rfl,rfl,[ascii "a",ascii "b"],by decide,by decide,by decide⟩

end Requests

end WdHttp.PlainRoutes
