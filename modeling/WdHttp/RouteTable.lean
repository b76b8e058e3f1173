import WdHttp.PathTree
import WdHttp.StrUtil

/-!
# The route table

`RouteTable.cc` and `Router.cc` of wfrest. A route is registered under the pieces between
its slashes; a request goes down the tree by the pieces of its path. A node without
children takes every path that goes on below it.
-/

set_option autoImplicit false

namespace WdHttp.RouteTable
open WdHttp.PosixFile WdHttp.StrUtil WdHttp.PathTree

def starByte : UInt8 := 42
def openBrace : UInt8 := 123
def closeBrace : UInt8 := 125
def blank : UInt8 := 32

inductive Verb where
  | ANY
  | GET
  | POST
  | PUT
  | DELETE
  | HEAD
  | PATCH
  deriving DecidableEq, Repr

variable {H : Type}

structure VerbHandler (H : Type) where
  verbHandlerMap : List (Verb × H)
  path : Bytes
  deriving DecidableEq

def noHandler : VerbHandler H := ⟨[],[]⟩

abbrev RouteTableNode (H : Type) := Tree Bytes (VerbHandler H)

def emptyNode : RouteTableNode H := .node noHandler []

/-- The texts between the slashes from a cursor on; a slash at the cursor is skipped. -/
def pieces (s : Bytes) : List Bytes :=
  if s = [] then [] else splitFrom slash [] (if s.head? = some slash then s.tail else s)

/-- In a route the last slash is ignored. -/
def routePieces (route : Bytes) : List Bytes :=
  pieces (if route.getLast? = some slash then route.dropLast else route)

/-- `find_or_create` with a change of the handler it returns. A second node for the route `/`
is not put into the table, and what is changed there is lost. -/
def findOrCreate (route : Bytes) (f : VerbHandler H → VerbHandler H) (root : RouteTableNode H) :
    RouteTableNode H :=
  if route = [slash] then
    match root.child [slash] with
    | some _ => root
    | none => root.modify noHandler f [[slash]]
  else root.modify noHandler f (routePieces route)

/-- A map: no name is there twice. -/
abbrev Params := List (Bytes × Bytes)

/-- `route_params[name] = value`. -/
def assign (params : Params) (name value : Bytes) : Params :=
  params.filter (fun nv => nv.1 ≠ name) ++ [(name,value)]

structure Search (H : Type) where
  node : Option (VerbHandler H)
  routeParams : Params
  routeMatchPath : Bytes

def endsWith (s : Bytes) (b : UInt8) : Bool := s.getLast? = some b

def isWildcard (key mid : Bytes) : Bool := endsWith key starByte && key.dropLast.isPrefixOf mid

def isParam (key : Bytes) : Bool :=
  2 < key.length && key.head? = some openBrace && endsWith key closeBrace

/-- The name between the braces without the blanks around it. When there are only blanks the
piece is shrunk below its length, and making a string of it throws. -/
def paramName (key : Bytes) : Option Bytes :=
  let name := (key.tail.dropLast.dropWhile (· = blank)).rdropWhile (· = blank)
  if name = [] then none else some name

def restText (ps : List Bytes) : Bytes := ps.flatMap fun p => slash :: p

/-- The search goes on in a child when nothing is found yet. -/
def orBelow (s : Search H) (c : Option (RouteTableNode H))
    (go : RouteTableNode H → Params → Option (Search H)) : Option (Search H) :=
  match s.node, c with
  | none, some c => go c s.routeParams
  | _, _ => some s

/-- Of the keys with a star at the end that fit and the parameters, the first one counts. -/
def orPattern (s : Search H) (n : RouteTableNode H) (mid behind : Bytes)
    (go : RouteTableNode H → Params → Option (Search H)) : Option (Search H) :=
  match s.node with
  | some _ => some s
  | none =>
    match n.children.find? fun kv => isWildcard kv.1 mid || isParam kv.1 with
    | none => some s
    | some kv =>
      if isWildcard kv.1 mid then some ⟨some kv.2.value,s.routeParams,mid ++ behind⟩
      else (paramName kv.1).bind fun name => go kv.2 (assign s.routeParams name mid)

/-- `find`, with `none` for the exception. The text of the route goes on behind its pieces with
what `call` has cut off; the star's text is read from there as a C string. -/
def find (cut : Bytes) : Bool → List Bytes → RouteTableNode H → Params → Option (Search H)
  | _, [], n, params =>
    if n.value.verbHandlerMap ≠ [] ∨ n.children = [] then some ⟨some n.value,params,[]⟩
    else some ⟨(n.child [starByte]).map Tree.value,params,[]⟩
  | atRoot, mid :: rest, n, params =>
    if n.children = [] then some ⟨some n.value,params,[]⟩
    else
      let s : Search H := ⟨none,params,[]⟩
      let s := if atRoot ∧ mid = [] ∧ rest = [] then
          orBelow s (n.child [slash]) (find cut false rest)
        else some s
      let s := s.bind fun s => orBelow s (n.child mid) (find cut false rest)
      s.bind fun s => orPattern s n mid (cText (restText rest ++ cut)) (find cut false rest)

inductive Reply (H : Type) where
  | handled (handler : H) (fullPath : Bytes) (routeParams : Params) (routeMatchPath : Bytes)
  | verbNotImplment
  | notFound
  | lengthError
  deriving DecidableEq

/-- What `Router::handle` does with the handler it has found: a verb is entered once. -/
def VerbHandler.enter (route : Bytes) (handler : H) (verb : Verb) (vh : VerbHandler H) :
    VerbHandler H :=
  if (vh.verbHandlerMap.lookup verb).isSome then vh
  else ⟨vh.verbHandlerMap ++ [(verb,handler)],route⟩

/-- `Router::handle`; the route goes to the table as a C string. -/
def handle (root : RouteTableNode H) (route : Bytes) (handler : H) (verb : Verb) :
    RouteTableNode H :=
  findOrCreate (cText route) (VerbHandler.enter route handler verb) root

def cutSlash (route : Bytes) : Bytes × Bytes :=
  if 1 < route.length ∧ endsWith route slash then (route.dropLast,[slash]) else (route,[])

/-- The pieces of a request's path, one slash at its end left out. -/
def target (path : Bytes) : List Bytes := pieces (cutSlash path).1

/-- The handler of the verb, else the one for any verb. -/
def VerbHandler.pick (vh : VerbHandler H) (verb : Verb) : Option H :=
  (vh.verbHandlerMap.lookup verb).or (vh.verbHandlerMap.lookup .ANY)

def call (root : RouteTableNode H) (verb : Verb) (route : Bytes) : Reply H :=
  match find (cutSlash route).2 true (target route) root [] with
  | none => .lengthError
  | some s =>
    match s.node with
    | none => .notFound
    | some vh =>
      match vh.pick verb with
      | some h => .handled h vh.path s.routeParams s.routeMatchPath
      | none => .verbNotImplment

section Steps

variable {s : Search H} {go : RouteTableNode H → Params → Option (Search H)}

theorem orBelow_none : orBelow s none go = some s := by
  cases h : s.node <;> simp [orBelow, h]

theorem orBelow_some {c : RouteTableNode H} (h : s.node = none) :
    orBelow s (some c) go = go c s.routeParams := by
  simp [orBelow, h]

theorem orBelow_found {c : Option (RouteTableNode H)} {vh : VerbHandler H}
    (h : s.node = some vh) : orBelow s c go = some s := by
  simp [orBelow, h]

theorem lookup_assign (params : Params) (name value n : Bytes) :
    (assign params name value).lookup n = if n = name then some value else params.lookup n := by
  have hfilter : (params.filter fun nv => nv.1 ≠ name).lookup n =
      if n = name then none else params.lookup n := by
    induction params with
    | nil => rw [List.filter_nil, List.lookup_nil, ite_self]
    | cons nv params ih =>
      by_cases hnv : nv.1 = name
      · rw [List.filter_cons_of_neg (by simpa using hnv), ih, List.lookup_cons, hnv]
        by_cases hn : n = name
        · rw [if_pos hn, if_pos hn]
        · rw [if_neg hn, if_neg hn, beq_false_of_ne hn]
      · rw [List.filter_cons_of_pos (by simpa using hnv), List.lookup_cons, List.lookup_cons, ih]
        by_cases hn : n = nv.1
        · rw [hn, beq_self_eq_true]
          exact (if_neg hnv).symm
        · rw [beq_false_of_ne hn]
  rw [assign, List.lookup_append, hfilter, List.lookup_cons]
  by_cases hn : n = name
  · rw [if_pos hn, if_pos hn, hn, beq_self_eq_true]
    rfl
  · rw [if_neg hn, if_neg hn, beq_false_of_ne hn]
    exact Option.or_none

end Steps

section Patterns

/-- What a path of the tree takes, with the parameters read and the text a star stands for. -/
inductive Fits (cut : Bytes) : List Bytes → List Bytes → Params → Bytes → Prop where
  | here : Fits cut [] [] [] []
  | piece {mid : Bytes} {ks q : List Bytes} {ρ : Params} {m : Bytes} :
      Fits cut ks q ρ m → Fits cut (mid :: ks) (mid :: q) ρ m
  | param {key name mid : Bytes} {ks q : List Bytes} {ρ : Params} {m : Bytes} :
      isParam key = true → paramName key = some name → Fits cut ks q ρ m →
      Fits cut (key :: ks) (mid :: q) ((name,mid) :: ρ) m
  | wildcard {key mid : Bytes} (rest : List Bytes) :
      isWildcard key mid = true →
      Fits cut [key] (mid :: rest) [] (mid ++ cText (restText rest ++ cut))
  | star : Fits cut [[starByte]] [] [] []
  | root {ks : List Bytes} {m : Bytes} :
      Fits cut ks [] [] m → Fits cut ([slash] :: ks) [[]] [] m

variable {cut : Bytes} {t c : RouteTableNode H} {ps ks q : List Bytes} {params params' ρ : Params}

theorem Fits.read {m : Bytes} (h : Fits cut ks q ρ m) {nv : Bytes × Bytes} (hnv : nv ∈ ρ) :
    ∃ (i : ℕ) (key : Bytes), ks[i]? = some key ∧ isParam key = true ∧
      paramName key = some nv.1 ∧ q[i]? = some nv.2 := by
  induction h with
  | here => cases hnv
  | wildcard => cases hnv
  | star => cases hnv
  | root => cases hnv
  | piece _ ih =>
    obtain ⟨i,key,hk⟩ := ih hnv
    exact ⟨i+1,key,hk⟩
  | @param key name mid ks q ρ m hp hn _ ih =>
    rcases List.mem_cons.mp hnv with rfl | hnv
    · exact ⟨0,key,rfl,hp,hn,rfl⟩
    · obtain ⟨i,key,hk⟩ := ih hnv
      exact ⟨i+1,key,hk⟩

/-- A parameter of the tree stands at the place of a piece. -/
def ReadAt (t : RouteTableNode H) (ps : List Bytes) (name value : Bytes) : Prop :=
  ∃ ks key, t.valueAt (ks ++ [key]) ≠ none ∧ isParam key = true ∧ paramName key = some name ∧
    ps[ks.length]? = some value

/-- What a search does to the parameters: none is lost, and a new value is a piece at the place
of a parameter of the name. -/
structure Reads (t : RouteTableNode H) (ps : List Bytes) (params params' : Params) : Prop where
  kept : ∀ name, params.lookup name ≠ none → params'.lookup name ≠ none
  source : ∀ name value, params'.lookup name = some value →
    params.lookup name = some value ∨ ReadAt t ps name value

def Blank (t : RouteTableNode H) : Prop :=
  ∃ ks key, t.valueAt (ks ++ [key]) ≠ none ∧ isParam key = true ∧ paramName key = none

theorem valueAt_child {k : Bytes} (hc : t.child k = some c) (ks : List Bytes) :
    t.valueAt (k :: ks) = c.valueAt ks := by
  rw [Tree.valueAt_cons, hc]
  rfl

theorem Blank.child {k : Bytes} (hc : t.child k = some c) (h : Blank c) : Blank t := by
  obtain ⟨ks,key,hv,hkey⟩ := h
  exact ⟨k :: ks,key,by rwa [List.cons_append, valueAt_child hc],hkey⟩

theorem Reads.refl : Reads t ps params params := ⟨fun _ h => h,fun _ _ h => Or.inl h⟩

theorem Reads.trans {params'' : Params} (h : Reads t ps params params')
    (h' : Reads t ps params' params'') : Reads t ps params params'' where
  kept name hn := h'.kept name (h.kept name hn)
  source name value hv := (h'.source name value hv).elim (h.source name value) Or.inr

theorem Reads.child {k mid : Bytes} (hc : t.child k = some c) (h : Reads c ps params params') :
    Reads t (mid :: ps) params params' where
  kept := h.kept
  source name value hv := by
    refine (h.source name value hv).imp_right ?_
    rintro ⟨ks,key,hv,hkey,hname,hread⟩
    exact ⟨k :: ks,key,by rwa [List.cons_append, valueAt_child hc],hkey,hname,hread⟩

theorem Reads.assign {key name mid : Bytes} (hc : t.child key = some c)
    (hkey : isParam key = true) (hname : paramName key = some name) :
    Reads t (mid :: ps) params (assign params name mid) where
  kept n hn := by
    rw [lookup_assign]
    split
    · exact Option.some_ne_none _
    · exact hn
  source n value hv := by
    rw [lookup_assign] at hv
    split at hv
    next hn =>
      refine Or.inr ⟨[],key,?_,hkey,hn ▸ hname,hv⟩
      rw [List.nil_append, valueAt_child hc]
      exact Option.some_ne_none _
    next => exact Or.inl hv

/-- A search that has found something has found it at a path that fits, up to where the tree
ends; the parameters of the fit are among those that were read. -/
structure Sound (cut : Bytes) (t : RouteTableNode H) (ps : List Bytes) (params : Params)
    (s : Search H) : Prop where
  reads : Reads t ps params s.routeParams
  found : ∀ vh, s.node = some vh → ∃ ks q r ρ, ps = q ++ r ∧ t.valueAt ks = some vh ∧
    Fits cut ks q ρ s.routeMatchPath ∧ (∀ nv ∈ ρ, s.routeParams.lookup nv.1 ≠ none) ∧
    (r = [] ∨ ∀ k, t.valueAt (ks ++ [k]) = none)

/-- Only a blank parameter ends a search with the exception. -/
def Searched (cut : Bytes) (t : RouteTableNode H) (ps : List Bytes) (params : Params) :
    Option (Search H) → Prop
  | none => Blank t
  | some s => Sound cut t ps params s

theorem Searched.bind {s : Option (Search H)} {k : Search H → Option (Search H)}
    (hs : Searched cut t ps params s)
    (hk : ∀ s, Sound cut t ps params s → Searched cut t ps params (k s)) :
    Searched cut t ps params (s.bind k) := by
  cases s with
  | none => exact hs
  | some s => exact hk s hs

theorem Sound.here (h : ps = [] ∨ t.children = []) :
    Sound cut t ps params ⟨some t.value,params,[]⟩ where
  reads := .refl
  found vh hvh := by
    obtain rfl := Option.some.inj hvh
    exact ⟨[],[],ps,[],rfl,rfl,.here,List.forall_mem_nil _,
      h.imp_right Tree.children_eq_nil_iff.mp⟩

theorem Sound.missing (m : Bytes) : Sound cut t ps params ⟨none,params,m⟩ :=
  ⟨.refl,fun _ hvh => (nomatch hvh)⟩

theorem Searched.deeper {key mid : Bytes} {s : Option (Search H)} (read : Params)
    (hc : t.child key = some c) (hp : Reads t (mid :: ps) params params')
    (hread : ∀ nv ∈ read, params'.lookup nv.1 ≠ none) (hs : Searched cut c ps params' s)
    (hfit : ∀ ks q ρ m, q <+: ps → Fits cut ks q ρ m →
      Fits cut (key :: ks) (mid :: q) (read ++ ρ) m) :
    Searched cut t (mid :: ps) params s := by
  cases s with
  | none => exact hs.child hc
  | some s =>
    refine ⟨hp.trans (hs.reads.child hc),fun vh hvh => ?_⟩
    obtain ⟨ks,q,r,ρ,rfl,hv,hf,hρ,hr⟩ := hs.found vh hvh
    refine ⟨key :: ks,mid :: q,r,read ++ ρ,rfl,(valueAt_child hc ks).trans hv,
      hfit ks q ρ _ (List.prefix_append _ _) hf,?_,?_⟩
    · rw [List.forall_mem_append]
      exact ⟨fun nv hnv => hs.reads.kept _ (hread nv hnv),hρ⟩
    · exact hr.imp_right fun hleaf k => (valueAt_child hc (ks ++ [k])).trans (hleaf k)

theorem Sound.orBelow {s : Search H} {c : Option (RouteTableNode H)}
    {go : RouteTableNode H → Params → Option (Search H)} (hs : Sound cut t ps params s)
    (hgo : ∀ c', c = some c' → ∀ params', Reads t ps params params' →
      Searched cut t ps params (go c' params')) :
    Searched cut t ps params (RouteTable.orBelow s c go) := by
  cases c with
  | none =>
    rw [orBelow_none]
    exact hs
  | some c' =>
    cases hn : s.node with
    | none =>
      rw [orBelow_some hn]
      exact hgo c' rfl _ hs.reads
    | some vh =>
      rw [orBelow_found hn]
      exact hs

theorem Sound.orPattern {mid : Bytes} {s : Search H}
    {go : RouteTableNode H → Params → Option (Search H)}
    (hs : Sound cut t (mid :: ps) params s)
    (hgo : ∀ c' params', Searched cut c' ps params' (go c' params')) :
    Searched cut t (mid :: ps) params
      (RouteTable.orPattern s t mid (cText (restText ps ++ cut)) go) := by
  rw [RouteTable.orPattern]
  split
  · exact hs
  · split
    · exact hs
    next kv hkv =>
      have hc := Tree.child_of_find? (p := fun key => isWildcard key mid || isParam key) hkv
      have hkey : (isWildcard kv.1 mid || isParam kv.1) = true := by
        simpa using List.find?_some hkv
      split
      next hw =>
        refine ⟨hs.reads,fun vh hvh => ?_⟩
        obtain rfl := Option.some.inj hvh
        exact ⟨[kv.1],mid :: ps,[],[],(List.append_nil _).symm,valueAt_child hc [],
          .wildcard ps hw,List.forall_mem_nil _,Or.inl rfl⟩
      next hw =>
        have hparam : isParam kv.1 = true := by
          simpa [hw] using hkey
        cases hname : paramName kv.1 with
        | none =>
          refine ⟨[],kv.1,?_,hparam,hname⟩
          rw [List.nil_append, valueAt_child hc]
          exact Option.some_ne_none _
        | some name =>
          apply Searched.deeper [(name,mid)] hc (hs.reads.trans (.assign hc hparam hname)) ?_
            (hgo _ _) fun ks q ρ m _ hf => .param hparam hname hf
          rw [List.forall_mem_singleton, lookup_assign, if_pos rfl]
          exact Option.some_ne_none _

theorem find_sound (cut : Bytes) (atRoot : Bool) (ps : List Bytes) (t : RouteTableNode H)
    (params : Params) : Searched cut t ps params (find cut atRoot ps t params) := by
  induction ps generalizing atRoot t params with
  | nil =>
    rw [find]
    split
    · exact Sound.here (Or.inl rfl)
    · cases hc : t.child [starByte] with
      | none => exact Sound.missing _
      | some c =>
        refine ⟨.refl,fun vh hvh => ?_⟩
        obtain rfl := Option.some.inj hvh
        exact ⟨[[starByte]],[],[],[],rfl,valueAt_child hc [],.star,List.forall_mem_nil _,Or.inl rfl⟩
  | cons mid rest ih =>
    have hbelow : ∀ key {c params'}, t.child key = some c → Reads t (mid :: rest) params params' →
        (∀ ks q ρ m, q <+: rest → Fits cut ks q ρ m → Fits cut (key :: ks) (mid :: q) ρ m) →
        Searched cut t (mid :: rest) params (find cut false rest c params') := by
      intro key c params' hc hp hfit
      exact Searched.deeper [] hc hp (List.forall_mem_nil _) (ih false c params') hfit
    rw [find]
    split
    next hleaf => exact Sound.here (Or.inr hleaf)
    next =>
      have hroot : Searched cut t (mid :: rest) params
          (if atRoot ∧ mid = [] ∧ rest = [] then
            orBelow ⟨none,params,[]⟩ (t.child [slash]) (find cut false rest)
          else some ⟨none,params,[]⟩) := by
        split
        next hr =>
          obtain ⟨-,rfl,rfl⟩ := hr
          refine (Sound.missing _).orBelow fun c hc params' hp => hbelow [slash] hc hp ?_
          intro ks q ρ m hq hf
          obtain rfl := List.prefix_nil.mp hq
          have hρ : ρ = [] := by
            rw [List.eq_nil_iff_forall_not_mem]
            intro nv hnv
            obtain ⟨i,_,-,-,-,hi⟩ := hf.read hnv
            cases hi
          subst hρ
          exact .root hf
        next => exact Sound.missing _
      have hpiece := hroot.bind fun s hs => hs.orBelow
        fun c hc params' hp => hbelow mid hc hp fun ks q ρ m _ hf => .piece hf
      exact hpiece.bind fun s hs => hs.orPattern fun c' params' => ih false c' params'

end Patterns

structure Route (H : Type) where
  verb : Verb
  route : Bytes
  handler : H

/-- Where a route stands in the tree. -/
def Route.key (r : Route H) : List Bytes :=
  if cText r.route = [slash] then [[slash]] else routePieces (cText r.route)

def table (rs : List (Route H)) : RouteTableNode H :=
  rs.foldl (fun root r => handle root r.route r.handler r.verb) emptyNode

section Table

variable {rs : List (Route H)}

theorem table_snoc (rs : List (Route H)) (r : Route H) :
    table (rs ++ [r]) = handle (table rs) r.route r.handler r.verb := by
  rw [table, List.foldl_append]
  rfl

theorem lookup_enter (route : Bytes) (handler : H) (verb v : Verb) (vh : VerbHandler H) :
    (vh.enter route handler verb).verbHandlerMap.lookup v =
      (vh.verbHandlerMap.lookup v).or (if verb = v then some handler else none) := by
  rw [VerbHandler.enter]
  split
  next hs =>
    split
    next hv =>
      obtain ⟨h,hh⟩ := Option.isSome_iff_exists.mp hs
      rw [← hv, hh]
      rfl
    next => rw [Option.or_none]
  next hn =>
    rw [List.lookup_append]
    congr 1
    rw [List.lookup_cons]
    by_cases hv : verb = v
    · rw [if_pos hv, hv, beq_self_eq_true]
    · rw [if_neg hv, beq_false_of_ne (Ne.symm hv)]
      rfl

theorem table_snoc_cases (rs : List (Route H)) (r : Route H) :
    table (rs ++ [r]) = table rs ∧ r.key = [[slash]] ∧ (table rs).valueAt r.key ≠ none ∨
    table (rs ++ [r]) =
      (table rs).modify noHandler (VerbHandler.enter r.route r.handler r.verb) r.key := by
  rw [table_snoc, handle, findOrCreate]
  by_cases hr : cText r.route = [slash]
  · have hkey : r.key = [[slash]] := if_pos hr
    rw [if_pos hr, hkey]
    cases hc : (table rs).child [slash] with
    | none => exact Or.inr rfl
    | some c =>
      refine Or.inl ⟨rfl,rfl,?_⟩
      rw [valueAt_child hc]
      exact Option.some_ne_none _
  · have hkey : r.key = routePieces (cText r.route) := if_neg hr
    rw [if_neg hr, hkey]
    exact Or.inr rfl

theorem mem_of_valueAt {ks : List Bytes} {vh : VerbHandler H}
    (h : (table rs).valueAt ks = some vh) {v : Verb} {handler : H}
    (hl : vh.verbHandlerMap.lookup v = some handler) :
    ∃ r ∈ rs, r.key = ks ∧ r.verb = v ∧ r.handler = handler := by
  induction rs using List.reverseRecOn generalizing vh with
  | nil =>
    rw [table, List.foldl_nil, emptyNode, Tree.valueAt_fresh] at h
    split at h
    · obtain rfl := Option.some.inj h
      cases hl
    · cases h
  | append_singleton rs r ih =>
    have hold : ∀ {vh'}, (table rs).valueAt ks = some vh' →
        vh'.verbHandlerMap.lookup v = some handler →
        ∃ r' ∈ rs ++ [r], r'.key = ks ∧ r'.verb = v ∧ r'.handler = handler := by
      intro vh' h' hl'
      obtain ⟨r',hr',hr''⟩ := ih h' hl'
      exact ⟨r',List.mem_append_left _ hr',hr''⟩
    have hgetD : ∀ {vh'}, ((table rs).valueAt ks).getD noHandler = vh' →
        vh'.verbHandlerMap.lookup v = some handler →
        ∃ r' ∈ rs ++ [r], r'.key = ks ∧ r'.verb = v ∧ r'.handler = handler := by
      intro vh' h' hl'
      cases hv : (table rs).valueAt ks with
      | none =>
        rw [hv] at h'
        subst h'
        cases hl'
      | some vh'' =>
        rw [hv] at h'
        subst h'
        exact hold hv hl'
    rcases table_snoc_cases rs r with ⟨htable,-,-⟩ | htable
    · rw [htable] at h
      exact hold h hl
    · rw [htable, Tree.valueAt_modify] at h
      split at h
      next hk =>
        obtain rfl := Option.some.inj h
        rw [lookup_enter, Option.or_eq_some_iff] at hl
        rcases hl with hl | ⟨-,hl⟩
        · rw [← hk] at hl
          exact hgetD rfl hl
        · split at hl
          next hv =>
            exact ⟨r,List.mem_append_right _ List.mem_cons_self,hk.symm,hv,Option.some.inj hl⟩
          next => cases hl
      next =>
        split at h
        · exact hgetD (Option.some.inj h) hl
        · exact hold h hl

theorem valueAt_table_ne_none (qs : List Bytes) :
    (table rs).valueAt qs ≠ none ↔ qs = [] ∨ ∃ r ∈ rs, qs <+: r.key := by
  induction rs using List.reverseRecOn with
  | nil =>
    rw [table, List.foldl_nil, emptyNode, Tree.valueAt_fresh]
    simp
  | append_singleton rs r ih =>
    have hexists : (∃ r' ∈ rs ++ [r], qs <+: r'.key) ↔ (∃ r' ∈ rs, qs <+: r'.key) ∨ qs <+: r.key := by
      simp only [List.mem_append, List.mem_singleton, or_and_right, exists_or, exists_eq_left]
    rw [hexists, ← or_assoc, ← ih]
    rcases table_snoc_cases rs r with ⟨htable,hkey,hthere⟩ | htable
    · rw [htable]
      refine ⟨Or.inl,fun h => h.elim id fun hq => ?_⟩
      rw [hkey] at hq hthere
      rcases List.prefix_cons_iff.mp hq with rfl | ⟨t,rfl,ht⟩
      · exact Option.some_ne_none _
      · obtain rfl := List.prefix_nil.mp ht
        exact hthere
    · rw [htable]
      constructor
      · intro h
        rw [Tree.valueAt_modify] at h
        by_cases hpre : qs <+: r.key
        · exact Or.inr hpre
        · have hne : qs ≠ r.key := fun heq => hpre (heq ▸ List.prefix_rfl)
          rw [if_neg hne, if_neg hpre] at h
          exact Or.inl h
      · intro h
        exact Tree.valueAt_modify_ne_none h.symm

/-- A route has the parameter at this place. -/
def Names (rs : List (Route H)) (name : Bytes) (i : ℕ) : Prop :=
  ∃ r ∈ rs, ∃ key, r.key[i]? = some key ∧ isParam key = true ∧ paramName key = some name

theorem names_of_valueAt {ks : List Bytes} {key name : Bytes}
    (hv : (table rs).valueAt (ks ++ [key]) ≠ none) (hkey : isParam key = true)
    (hname : paramName key = some name) : Names rs name ks.length := by
  rcases (valueAt_table_ne_none _).mp hv with hnil | ⟨r,hr,hpre⟩
  · exact absurd hnil (by simp)
  · have hget := List.prefix_iff_getElem?.mp hpre ks.length (by simp)
    rw [List.getElem_concat_length rfl] at hget
    exact ⟨r,hr,key,hget,hkey,hname⟩

theorem mem_of_pick {ks : List Bytes} {vh : VerbHandler H} {verb : Verb} {handler : H}
    (hv : (table rs).valueAt ks = some vh) (hl : vh.pick verb = some handler) :
    ∃ r ∈ rs, r.key = ks ∧ (r.verb = verb ∨ r.verb = .ANY) ∧ r.handler = handler := by
  rw [VerbHandler.pick, Option.or_eq_some_iff] at hl
  rcases hl with hl | ⟨-,hl⟩
  · obtain ⟨r,hr,hk,hverb,hh⟩ := mem_of_valueAt hv hl
    exact ⟨r,hr,hk,Or.inl hverb,hh⟩
  · obtain ⟨r,hr,hk,hverb,hh⟩ := mem_of_valueAt hv hl
    exact ⟨r,hr,hk,Or.inr hverb,hh⟩

theorem blank_table (h : Blank (table rs)) :
    ∃ r ∈ rs, ∃ key ∈ r.key, isParam key = true ∧ paramName key = none := by
  obtain ⟨ks,key,hv,hkey⟩ := h
  rcases (valueAt_table_ne_none _).mp hv with hnil | ⟨r,hr,hpre⟩
  · exact absurd hnil (by simp)
  · exact ⟨r,hr,key,hpre.subset (by simp),hkey⟩

theorem Reads.named {ps : List Bytes} {params : Params} (h : Reads (table rs) ps [] params)
    {name value : Bytes} (hv : params.lookup name = some value) :
    ∃ i, Names rs name i ∧ ps[i]? = some value := by
  rcases h.source name value hv with hv | ⟨ks,key,hv,hkey,hname,hat⟩
  · cases hv
  · exact ⟨ks.length,names_of_valueAt hv hkey hname,hat⟩

/-- Whatever the routes are, with parameters and stars: a request only reaches a handler that
was registered for its verb or for any, under a route its path fits; pieces are left over only
where no route goes on. What is handed over for a name is a piece at the place of a parameter of
this name. All parameters of the route are handed over, and when the parameters of a name stand
at one place only, with the piece that the route has there. -/
theorem call_fits (rs : List (Route H)) (verb : Verb) (path : Bytes) :
    (∀ h p params m, call (table rs) verb path = .handled h p params m →
      (∃ r ∈ rs, r.handler = h ∧ (r.verb = verb ∨ r.verb = .ANY) ∧
        ∃ q rest ρ, target path = q ++ rest ∧ Fits (cutSlash path).2 r.key q ρ m ∧
          (rest = [] ∨ ∀ r' ∈ rs, r.key <+: r'.key → r'.key = r.key) ∧
          ∀ nv ∈ ρ, params.lookup nv.1 ≠ none ∧
            ((∀ i j, Names rs nv.1 i → Names rs nv.1 j → i = j) →
              params.lookup nv.1 = some nv.2)) ∧
      ∀ name value, params.lookup name = some value →
        ∃ i, Names rs name i ∧ (target path)[i]? = some value) ∧
    (call (table rs) verb path = .lengthError →
      ∃ r ∈ rs, ∃ key ∈ r.key, isParam key = true ∧ paramName key = none) := by
  have hsound := find_sound (cutSlash path).2 true (target path) (table rs) []
  rw [call]
  cases hfind : find (cutSlash path).2 true (target path) (table rs) [] with
  | none =>
    rw [hfind] at hsound
    exact ⟨fun h p params m hcall => (nomatch hcall),fun _ => blank_table hsound⟩
  | some s =>
    rw [hfind] at hsound
    cases hn : s.node with
    | none => simp [hn]
    | some vh =>
      cases hl : vh.pick verb with
      | none => simp [hn, hl]
      | some h' =>
        simp only [hn, hl]
        refine ⟨fun h p params m hcall => ?_,fun hcall => (nomatch hcall)⟩
        obtain ⟨rfl,rfl,rfl,rfl⟩ := Reply.handled.inj hcall
        refine ⟨?_,fun name value hv => hsound.reads.named hv⟩
        obtain ⟨ks,q,rest,ρ,hq,hv,hfits,hρ,hrest⟩ := hsound.found vh hn
        obtain ⟨r,hr,rfl,hverb,hh⟩ := mem_of_pick hv hl
        refine ⟨r,hr,hh,hverb,q,rest,ρ,hq,hfits,?_,fun nv hnv => ⟨hρ nv hnv,fun hone => ?_⟩⟩
        · refine hrest.imp_right fun hleaf r' hr' hpre => eq_of_no_longer hpre fun k hmore => ?_
          exact (valueAt_table_ne_none _).mpr (Or.inr ⟨r',hr',hmore⟩) (hleaf k)
        · obtain ⟨value,hvalue⟩ := Option.ne_none_iff_exists'.mp (hρ nv hnv)
          obtain ⟨i,hi,hat⟩ := hsound.reads.named hvalue
          obtain ⟨j,key,hj,hkey,hname,hqj⟩ := hfits.read hnv
          obtain rfl := hone i j hi ⟨r,hr,key,hj,hkey,hname⟩
          have hlt : i < q.length := (List.getElem?_eq_some_iff.mp hqj).1
          rw [hq, List.getElem?_append_left hlt, hqj] at hat
          rw [hvalue, hat]

def patternRoutes : List (Route ℕ) :=
  [⟨.GET,ascii "/u/\x7bid\x7d",0⟩,⟨.ANY,ascii "/s/*",1⟩,
    ⟨.GET,ascii "/p/\x7bid\x7d/\x7bid\x7d",2⟩,⟨.GET,ascii "/b/\x7b \x7d",3⟩]

example : call (table patternRoutes) .GET (ascii "/u/7/") =
    .handled 0 (ascii "/u/\x7bid\x7d") [(ascii "id",ascii "7")] [] := by
  decide

-- Of two parameters of one name the second value stays.
example : call (table patternRoutes) .GET (ascii "/p/7/8") =
    .handled 2 (ascii "/p/\x7bid\x7d/\x7bid\x7d") [(ascii "id",ascii "8")] [] := by
  decide

example : call (table patternRoutes) .GET (ascii "/b/7") = .lengthError := by
  decide

end Table

end WdHttp.RouteTable
