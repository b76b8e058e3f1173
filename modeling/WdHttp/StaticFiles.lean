import WdHttp.BluePrint
import WdHttp.HttpServer
import WdHttp.HttpFile

/-!
# Directories in the server

`HttpServer::Static` of wfrest. A directory is registered as a blueprint with the one route
`/*`; its handler answers with the file whose name is what the star stands for. Routes
come first, and of several directories the one with the longest path.
-/

set_option autoImplicit false

namespace WdHttp.StaticFiles
open WdHttp.PosixFile WdHttp.StrUtil WdHttp.CodeUtil WdHttp.UriUtil WdHttp.PathTree
open WdHttp.RouteTable WdHttp.PlainRoutes WdHttp.BluePrint WdHttp.HttpServer WdHttp.HttpFile

/-- What the handler of `serve_static` has captured. -/
structure StaticRoute where
  pathStr : Bytes
  isFile : Bool
  deriving DecidableEq

inductive Handler (A : Type) where
  | app (handler : A)
  | static (route : StaticRoute)
  deriving DecidableEq

variable {A : Type}

/-- The blueprint that `serve_static` fills. -/
def anyBelow (s : StaticRoute) : List (Registration (Handler A)) :=
  [.route ⟨.GET,ascii "/*",.static s⟩]

/-- `Static`; the kind of a path is `none` when there is neither a directory nor a regular file. -/
def static (isFile : Bytes → Option Bool) (root : RouteTableNode (Handler A))
    (relativePath path : Bytes) : RouteTableNode (Handler A) :=
  match isFile path with
  | none => root
  | some isFile => addBlueprint root (server (anyBelow ⟨path,isFile⟩)) relativePath

/-- The file that the handler answers with. -/
def StaticRoute.file (s : StaticRoute) (matchPath : Bytes) : Bytes :=
  if s.isFile = true ∧ matchPath = [] then s.pathStr else s.pathStr ++ slash :: matchPath

/-- What an application does before it serves. -/
inductive Setup (A : Type) where
  | app (e : Registration (Handler A))
  | directory (relativePath path : Bytes)

def setUp (isFile : Bytes → Option Bool) (root : RouteTableNode (Handler A)) :
    Setup A → RouteTableNode (Handler A)
  | .app e => register root e
  | .directory relativePath path => static isFile root relativePath path

def serve (isFile : Bytes → Option Bool) (ss : List (Setup A)) : RouteTableNode (Handler A) :=
  ss.foldl (setUp isFile) emptyNode

section Starless

mutual

/-- No route with a star of its own. -/
def starless {H : Type} : Registration H → Bool
  | .route r => [starByte] ∉ r.key
  | .blueprint _ inner => allStarless inner

def allStarless {H : Type} : List (Registration H) → Bool
  | [] => true
  | e :: es => starless e && allStarless es

end

variable {H : Type}

theorem mount_star {urlPrefix : Bytes} {inner m : Routes H}
    (hp : ∀ k ∈ routePieces urlPrefix, Plain k) (hin : ∀ Q, inner (Q ++ [[starByte]]) = none)
    (P : List Bytes) : mount urlPrefix inner m (P ++ [[starByte]]) = m (P ++ [[starByte]]) := by
  rw [mount]
  split
  next hpre =>
    obtain ⟨⟨below,hbelow⟩,-⟩ := hpre
    rw [← hbelow, List.drop_left]
    rcases List.eq_nil_or_concat below with rfl | ⟨Q,k,rfl⟩
    · rw [List.append_nil] at hbelow
      have hstar : [starByte] ∈ routePieces urlPrefix :=
        hbelow ▸ List.mem_append_right _ List.mem_cons_self
      exact absurd (hp _ hstar).toStatic not_static_star
    · rw [List.concat_eq_append, ← List.append_assoc] at hbelow
      obtain ⟨-,hk⟩ := List.append_inj' hbelow rfl
      rw [List.concat_eq_append, hk, hin]
      rfl
  next => rfl

mutual

theorem note_star : ∀ (e : Registration H), wellFormed e = true → starless e = true →
    ∀ (m : Routes H) P, note m e (P ++ [[starByte]]) = m (P ++ [[starByte]])
  | .route r, _, hs, m, P => by
    rw [starless, decide_eq_true_iff] at hs
    rw [note, Function.update_of_ne]
    intro heq
    exact hs (heq ▸ List.mem_append_right _ List.mem_cons_self)
  | .blueprint urlPrefix inner, hw, hs, m, P => by
    rw [wellFormed, decide_eq_true_iff] at hw
    rw [note]
    apply mount_star hw.2.1
    intro Q
    rw [noteAll_star inner hw.2.2.2 hs, noRoutes, if_neg (by simp)]

theorem noteAll_star : ∀ (es : List (Registration H)), allWellFormed es = true →
    allStarless es = true →
    ∀ (m : Routes H) P, noteAll m es (P ++ [[starByte]]) = m (P ++ [[starByte]])
  | [], _, _, m, P => rfl
  | e :: es, hw, hs, m, P => by
    rw [allWellFormed, Bool.and_eq_true] at hw
    rw [allStarless, Bool.and_eq_true] at hs
    rw [noteAll, noteAll_star es hw.2 hs.2, note_star e hw.1 hs.1]

end

theorem note_congr (e : Registration H) {m m' : Routes H} {ks : List Bytes} (h : m ks = m' ks) :
    note m e ks = note m' e ks := by
  cases e with
  | route r =>
    rw [note, note]
    by_cases hk : ks = r.key
    · subst hk
      rw [Function.update_self, Function.update_self, h]
    · rw [Function.update_of_ne hk, Function.update_of_ne hk, h]
  | blueprint urlPrefix inner =>
    rw [note, note, mount, mount, h]

theorem noteAll_append (m : Routes H) (es es' : List (Registration H)) :
    noteAll m (es ++ es') = noteAll (noteAll m es) es' := by
  induction es generalizing m with
  | nil => rfl
  | cons e es ih => rw [List.cons_append, noteAll, noteAll, ih]

end Starless

section Setups

variable (isFile : Bytes → Option Bool)

def Setup.registration : Setup A → Option (Registration (Handler A))
  | .app e => some e
  | .directory relativePath path =>
    (isFile path).map fun b => .blueprint relativePath (anyBelow ⟨path,b⟩)

def Setup.app? : Setup A → Option (Registration (Handler A))
  | .app e => some e
  | .directory _ _ => none

def Setup.directory? : Setup A → Option (Bytes × StaticRoute)
  | .app _ => none
  | .directory relativePath path => (isFile path).map fun b => (relativePath,⟨path,b⟩)

def registrations (ss : List (Setup A)) : List (Registration (Handler A)) :=
  ss.filterMap (Setup.registration isFile)

def apps (ss : List (Setup A)) : List (Registration (Handler A)) := ss.filterMap Setup.app?

/-- Of the directories served at a path the last one. -/
def directoryAt (ss : List (Setup A)) (P : List Bytes) : Option (Bytes × StaticRoute) :=
  (ss.filterMap (Setup.directory? isFile)).reverse.find? fun d => routePieces d.1 = P

def staticHandler (d : Bytes × StaticRoute) : VerbHandler (Handler A) :=
  ⟨[(.GET,.static d.2)],blueprintPath d.1 [starByte]⟩

/-- Routes without patterns, and directories at paths without patterns. -/
structure Plainly (ss : List (Setup A)) : Prop where
  wellFormed : allWellFormed (apps ss) = true
  starless : allStarless (apps ss) = true
  paths : ∀ d ∈ ss.filterMap (Setup.directory? isFile),
    0 ∉ d.1 ∧ ∀ k ∈ routePieces d.1, Plain k

variable {isFile} {ss : List (Setup A)}

theorem allWellFormed_iff {H : Type} {es : List (Registration H)} :
    allWellFormed es = true ↔ ∀ e ∈ es, BluePrint.wellFormed e = true := by
  induction es with
  | nil => simp [allWellFormed]
  | cons e es ih => rw [allWellFormed, Bool.and_eq_true, ih, List.forall_mem_cons]

theorem allStarless_iff {H : Type} {es : List (Registration H)} :
    allStarless es = true ↔ ∀ e ∈ es, StaticFiles.starless e = true := by
  induction es with
  | nil => simp [allStarless]
  | cons e es ih => rw [allStarless, Bool.and_eq_true, ih, List.forall_mem_cons]

theorem anyBelow_key (s : StaticRoute) :
    (⟨.GET,ascii "/*",.static s⟩ : Route (Handler A)).key = [[starByte]] := by
  have hslash : cText (ascii "/*") ≠ [slash] := by decide
  have hpieces : routePieces (cText (ascii "/*")) = [[starByte]] := by decide
  exact (if_neg hslash).trans hpieces

theorem Plainly.registrations (h : Plainly isFile ss) :
    allWellFormed (registrations isFile ss) = true := by
  rw [allWellFormed_iff]
  intro e he
  obtain ⟨s,hs,he⟩ := List.mem_filterMap.mp he
  cases s with
  | app e' =>
    obtain rfl := Option.some.inj he
    exact allWellFormed_iff.mp h.wellFormed _ (List.mem_filterMap.mpr ⟨_,hs,rfl⟩)
  | directory relativePath path =>
    obtain ⟨b,hb,rfl⟩ := Option.map_eq_some_iff.mp he
    have hd : (relativePath,StaticRoute.mk path b) ∈ ss.filterMap (Setup.directory? isFile) := by
      refine List.mem_filterMap.mpr ⟨_,hs,?_⟩
      rw [Setup.directory?, hb]
      rfl
    obtain ⟨hnul,hp⟩ := h.paths _ hd
    rw [BluePrint.wellFormed, decide_eq_true_iff, anyBelow, allWellFormed, allWellFormed,
      BluePrint.wellFormed, Bool.and_true, decide_eq_true_iff, anyBelow_key]
    exact ⟨hnul,hp,fun hno => (nomatch hno),List.cons_ne_nil _ _,Or.inr ⟨rfl,rfl⟩⟩

theorem note_directory (m : Routes (Handler A)) (relativePath : Bytes) (s : StaticRoute) :
    note m (.blueprint relativePath (anyBelow s)) =
      Function.update m (routePieces relativePath ++ [[starByte]])
        (some (staticHandler (relativePath,s))) := by
  have hkey : (⟨.GET,ascii "/*",.static s⟩ : Route (Handler A)).key ≠ [] := by
    rw [anyBelow_key]
    exact List.cons_ne_nil _ _
  rw [anyBelow, note_single _ _ hkey, anyBelow_key]
  rfl

/-- The map of the server: its stars are the directories, and the directories change no route. -/
theorem Plainly.routes (h : Plainly isFile ss) :
    (∀ P, BluePrint.routes (StaticFiles.registrations isFile ss) (P ++ [[starByte]]) =
      (directoryAt isFile ss P).map staticHandler) ∧
    ∀ ks, (∀ P, ks ≠ P ++ [[starByte]]) →
      BluePrint.routes (StaticFiles.registrations isFile ss) ks = BluePrint.routes (apps ss) ks := by
  have hw := allWellFormed_iff.mp h.wellFormed
  have hs := allStarless_iff.mp h.starless
  clear h
  induction ss using List.reverseRecOn with
  | nil =>
    refine ⟨fun P => ?_,fun ks _ => rfl⟩
    rw [StaticFiles.registrations, List.filterMap_nil, BluePrint.routes, noteAll, noRoutes,
      if_neg (by simp)]
    rfl
  | append_singleton ss s ih =>
    have hsnoc : ∀ es es' : List (Registration (Handler A)),
        BluePrint.routes (es ++ es') = noteAll (BluePrint.routes es) es' :=
      fun es es' => noteAll_append noRoutes es es'
    rw [apps, List.filterMap_append, List.forall_mem_append, ← apps, ← apps] at hw hs
    obtain ⟨hstar,hplain⟩ := ih hw.1 hs.1
    simp only [StaticFiles.registrations, apps, directoryAt, List.filterMap_append, hsnoc,
      List.reverse_append] at hstar hplain ⊢
    generalize BluePrint.routes (ss.filterMap (Setup.registration isFile)) = m at hstar hplain ⊢
    cases s with
    | app e =>
      have he : e ∈ apps [Setup.app e] := List.mem_singleton.mpr rfl
      refine ⟨fun P => ?_,fun ks hks => note_congr e (hplain ks hks)⟩
      exact (note_star e (hw.2 e he) (hs.2 e he) m P).trans (hstar P)
    | directory relativePath path =>
      cases hb : isFile path with
      | none =>
        simp only [List.filterMap_cons, List.filterMap_nil, Setup.registration, Setup.directory?,
          hb, Option.map_none]
        exact ⟨hstar,hplain⟩
      | some b =>
        simp only [List.filterMap_cons, List.filterMap_nil, Setup.registration, Setup.directory?,
          hb, Option.map_some, List.reverse_singleton, List.singleton_append, noteAll,
          note_directory]
        refine ⟨fun P => ?_,fun ks hks => ?_⟩
        · by_cases hP : routePieces relativePath = P
          · rw [hP, Function.update_self, List.find?_cons_of_pos (by simpa using hP)]
            rfl
          · rw [Function.update_of_ne, hstar, List.find?_cons_of_neg (by simpa using hP)]
            intro heq
            exact hP (List.append_cancel_right heq).symm
        · rw [Function.update_of_ne (hks _)]
          exact hplain ks hks

end Setups

section Requests

variable {isFile : Bytes → Option Bool} {ss : List (Setup A)} {m : Routes (Handler A)}
  {ps : List Bytes}

/-- The directory whose path is the longest of those that are prefixes of the request's. -/
structure NearestDirectory (isFile : Bytes → Option Bool) (ss : List (Setup A))
    (P rest : List Bytes) (d : Bytes × StaticRoute) (target : List Bytes) : Prop where
  below : target = P ++ rest
  there : directoryAt isFile ss P = some d
  longest : ∀ Q, Q <+: target → directoryAt isFile ss Q ≠ none → Q <+: P

theorem NearestDirectory.nearest {P rest : List Bytes} {d : Bytes × StaticRoute}
    (hd : NearestDirectory isFile ss P rest d ps) (h : Plainly isFile ss) :
    Nearest (routes (registrations isFile ss)) P rest (staticHandler d) ps := by
  obtain ⟨hstar,-⟩ := h.routes
  refine ⟨hd.below,?_,fun Q hQ hne => hd.longest Q hQ ?_⟩
  · rw [hstar, hd.there]
    rfl
  · rwa [hstar, Ne, Option.map_eq_none_iff] at hne

end Requests

end WdHttp.StaticFiles
