import WdHttp.PlainRoutes

/-!
# Blueprints

`BluePrint::add_blueprint` of wfrest. A blueprint collects its routes in a table of its own.
When it is registered, the nodes of that table that have no children are entered below a
prefix; the handlers they meet there are replaced, and those of the inner nodes are not
taken along.
-/

set_option autoImplicit false

namespace WdHttp.BluePrint
open WdHttp.PosixFile WdHttp.StrUtil WdHttp.PathTree WdHttp.RouteTable WdHttp.PlainRoutes

variable {H : Type}

def addSlash (pre : Bytes) : Bytes :=
  if pre ≠ [] ∧ endsWith pre slash = false then pre ++ [slash] else pre

/-- `RouteTable::all_routes`: the nodes without children and the texts of their paths. -/
def allRoutes (t : RouteTableNode H) : List (Bytes × VerbHandler H) :=
  Tree.foldLeaves (fun pre key => addSlash pre ++ key) [] t

def blueprintPath (urlPrefix sub : Bytes) : Bytes :=
  if urlPrefix ≠ [] ∧ endsWith urlPrefix slash = true then urlPrefix ++ sub
  else urlPrefix ++ slash :: sub

/-- `add_blueprint`; a path goes to the table and to its handler as a C string. -/
def addBlueprint (root bp : RouteTableNode H) (urlPrefix : Bytes) : RouteTableNode H :=
  (allRoutes bp).foldl (fun root r =>
    let path := cText (blueprintPath urlPrefix r.1)
    findOrCreate path (fun _ => ⟨r.2.verbHandlerMap,path⟩) root) root

/-- What an application does before it serves. A blueprint may have others in it. -/
inductive Registration (H : Type) where
  | route (r : Route H)
  | blueprint (urlPrefix : Bytes) (inner : List (Registration H))

mutual

def register (root : RouteTableNode H) : Registration H → RouteTableNode H
  | .route r => handle root r.route r.handler r.verb
  | .blueprint urlPrefix inner => addBlueprint root (registerAll emptyNode inner) urlPrefix

def registerAll (root : RouteTableNode H) : List (Registration H) → RouteTableNode H
  | [] => root
  | e :: es => registerAll (register root e) es

end

section Texts

/-- The text that `all_routes` makes of a path. -/
def pathText (ks : List Bytes) : Bytes := ks.foldl (fun pre key => addSlash pre ++ key) []

/-- A key that is its own text between two slashes. -/
structure Piece (key : Bytes) : Prop where
  nonempty : key ≠ []
  slash : slash ∉ key
  nul : 0 ∉ key

structure Plain (key : Bytes) : Prop extends Static key, Piece key

instance (key : Bytes) : Decidable (Plain key) :=
  decidable_of_iff (Static key ∧ key ≠ [] ∧ 0 ∉ key)
    ⟨fun h => ⟨h.1,h.2.1,h.2.2⟩,fun h => ⟨h.1,h.2,h.3⟩⟩

theorem starred_piece {ks : List Bytes} (h : Starred Plain ks) : ∀ k ∈ ks, Piece k := by
  intro k hk
  rcases h.mem hk with hp | rfl
  · exact hp.toPiece
  · exact ⟨by decide,by decide,by decide⟩

theorem endsWith_piece {key : Bytes} (h : Piece key) (pre : Bytes) :
    endsWith (pre ++ key) slash = false := by
  rw [endsWith, List.getLast?_append, decide_eq_false_iff_not]
  intro hlast
  cases hk : key.getLast? with
  | none => exact h.nonempty (List.getLast?_eq_none_iff.mp hk)
  | some b =>
    rw [hk, Option.some_or, Option.some.injEq] at hlast
    exact h.slash (hlast ▸ List.mem_of_getLast? hk)

theorem pathText_snoc (ks : List Bytes) (k : Bytes) :
    pathText (ks ++ [k]) = addSlash (pathText ks) ++ k := by
  rw [pathText, List.foldl_append]
  rfl

theorem pathText_cons_snoc {ks : List Bytes} (hne : ks ≠ []) (hks : ∀ k ∈ ks, Piece k)
    (k : Bytes) : pathText (ks ++ [k]) = pathText ks ++ slash :: k := by
  induction ks using List.reverseRecOn with
  | nil => exact absurd rfl hne
  | append_singleton ks k' _ =>
    have hk' : Piece k' := hks k' (List.mem_append_right _ List.mem_cons_self)
    rw [pathText_snoc, pathText_snoc ks k', addSlash, if_pos, List.append_assoc _ [slash]]
    · rfl
    · exact ⟨List.append_ne_nil_of_right_ne_nil _ hk'.nonempty,endsWith_piece hk' _⟩

theorem pieces_append (x y : Bytes) :
    pieces (x ++ slash :: y) = pieces x ++ splitFrom slash [] y := by
  rw [pieces, if_neg (by simp)]
  cases x with
  | nil => rfl
  | cons b x =>
    rw [pieces, if_neg (List.cons_ne_nil _ _), List.cons_append, List.head?_cons, List.head?_cons]
    split
    · rw [List.tail_cons, List.tail_cons, splitFrom_append]
    · rw [← List.cons_append, splitFrom_append]

theorem pieces_snoc (x : Bytes) {k : Bytes} (hk : slash ∉ k) :
    pieces (x ++ slash :: k) = pieces x ++ [k] := by
  rw [pieces_append, splitFrom_end hk]
  rfl

theorem routePieces_blueprintPath (urlPrefix : Bytes) {ks : List Bytes}
    (hks : ∀ k ∈ ks, Piece k) :
    routePieces (blueprintPath urlPrefix (pathText ks)) = routePieces urlPrefix ++ ks := by
  obtain ⟨base,hbase,hpath⟩ : ∃ base, pieces base = routePieces urlPrefix ∧
      ∀ sub, blueprintPath urlPrefix sub = base ++ slash :: sub := by
    by_cases hp : urlPrefix.getLast? = some slash
    · refine ⟨urlPrefix.dropLast,?_,fun sub => ?_⟩
      · rw [routePieces, if_pos hp]
      · have hcut := List.dropLast_append_getLast? slash hp
        rw [blueprintPath, if_pos]
        · conv_lhs => rw [← hcut]
          rw [List.append_assoc]
          rfl
        · refine ⟨?_,decide_eq_true hp⟩
          rintro rfl
          cases hp
    · refine ⟨urlPrefix,?_,fun sub => ?_⟩
      · rw [routePieces, if_neg hp]
      · rw [blueprintPath, if_neg]
        rintro ⟨-,hend⟩
        exact hp (of_decide_eq_true hend)
  have hall : ∀ ks : List Bytes, ks ≠ [] → (∀ k ∈ ks, Piece k) →
      pieces (base ++ slash :: pathText ks) = pieces base ++ ks := by
    intro ks hne hks
    induction ks using List.reverseRecOn with
    | nil => exact absurd rfl hne
    | append_singleton ks k ih =>
      rw [List.forall_mem_append, List.forall_mem_singleton] at hks
      by_cases hnil : ks = []
      · subst hnil
        exact pieces_snoc base hks.2.slash
      · rw [pathText_cons_snoc hnil hks.1, ← List.cons_append, ← List.append_assoc,
          pieces_snoc _ hks.2.slash, ih hnil hks.1, List.append_assoc]
  rw [hpath]
  induction ks using List.reverseRecOn with
  | nil =>
    -- a blueprint without routes: the text is the prefix with a slash at its end
    rw [pathText, List.foldl_nil, routePieces, List.getLast?_concat, if_pos rfl,
      List.dropLast_concat, hbase, List.append_nil]
  | append_singleton ks k _ =>
    have hk : Piece k := hks k (List.mem_append_right _ List.mem_cons_self)
    rw [routePieces, if_neg, hall _ (by simp) hks, hbase]
    rw [pathText_snoc, ← List.cons_append, ← List.append_assoc]
    exact of_decide_eq_false (endsWith_piece hk _)

theorem nul_not_mem_pathText {ks : List Bytes} (hks : ∀ k ∈ ks, Piece k) : 0 ∉ pathText ks := by
  induction ks using List.reverseRecOn with
  | nil => exact List.not_mem_nil
  | append_singleton ks k ih =>
    rw [List.forall_mem_append, List.forall_mem_singleton] at hks
    rw [pathText_snoc, addSlash]
    split
    · simp [ih hks.1, hks.2.nul, slash]
    · simp [ih hks.1, hks.2.nul]

theorem cText_blueprintPath {urlPrefix : Bytes} (hp : 0 ∉ urlPrefix) {ks : List Bytes}
    (hks : ∀ k ∈ ks, Piece k) :
    cText (blueprintPath urlPrefix (pathText ks)) = blueprintPath urlPrefix (pathText ks) := by
  apply cText_eq_self
  have hno := nul_not_mem_pathText hks
  rw [blueprintPath]
  split <;> simp [hp, hno, slash]

end Texts

section Maps

/-- The handlers of a blueprint's node under the path it gets. -/
def moved (urlPrefix : Bytes) (ks : List Bytes) (vh : VerbHandler H) : VerbHandler H :=
  ⟨vh.verbHandlerMap,blueprintPath urlPrefix (pathText ks)⟩

open Classical in
/-- What a blueprint is for: its last routes stand below the prefix, before what was there. -/
noncomputable def mount (urlPrefix : Bytes) (inner outer : Routes H) : Routes H := fun ks =>
  let below := ks.drop (routePieces urlPrefix).length
  if routePieces urlPrefix <+: ks ∧ Last inner below then
    ((inner below).map (moved urlPrefix below)).or (outer ks)
  else outer ks

/-- A table of its own has a node without handlers. -/
def noRoutes : Routes H := fun ks => if ks = [] then some noHandler else none

mutual

noncomputable def note (m : Routes H) : Registration H → Routes H
  | .route r => Function.update m r.key
      (some (((m r.key).getD noHandler).enter r.route r.handler r.verb))
  | .blueprint urlPrefix inner => mount urlPrefix (noteAll noRoutes inner) m

noncomputable def noteAll (m : Routes H) : List (Registration H) → Routes H
  | [] => m
  | e :: es => noteAll (note m e) es

end

mutual

/-- Routes of plain keys with a star of its own at the end at most. A blueprint that is empty
has a prefix with a piece: at the prefix `/` it would be entered as the route `/`. -/
def wellFormed : Registration H → Bool
  | .route r => r.key ≠ [] ∧ Starred Plain r.key
  | .blueprint urlPrefix inner =>
    0 ∉ urlPrefix ∧ (∀ k ∈ routePieces urlPrefix, Plain k) ∧
      (inner.isEmpty = true → routePieces urlPrefix ≠ []) ∧ allWellFormed inner = true

def allWellFormed : List (Registration H) → Bool
  | [] => true
  | e :: es => wellFormed e && allWellFormed es

end

/-- The table of a map whose keys are plain, but for stars. -/
structure Kept (m : Routes H) (t : RouteTableNode H) : Prop where
  holds : t.Holds noHandler m
  distinct : t.Distinct
  root : m [] ≠ none
  keys : ∀ ks, m ks ≠ none → Starred Plain ks

variable {m inner : Routes H} {root bp : RouteTableNode H}

theorem kept_empty : Kept noRoutes (emptyNode : RouteTableNode H) where
  holds := Tree.holds_root
  distinct := .node List.nodup_nil (List.forall_mem_nil _)
  root := Option.some_ne_none _
  keys ks h := by
    rw [noRoutes] at h
    split at h
    next hks => exact hks ▸ trivial
    next => exact absurd rfl h

theorem Kept.routed (h : Kept m root) : Routed m root :=
  ⟨h.holds,⟨[],h.root⟩,fun ks hks => (h.keys ks hks).mono fun _ hk => hk.toStatic⟩

theorem Kept.route (h : Kept m root) (r : Route H) (hkey : Starred Plain r.key) :
    Kept (note m (.route r)) (register root (.route r)) := by
  have hslash : cText r.route ≠ [slash] := by
    intro hroute
    have hk : r.key = [[slash]] := if_pos hroute
    rcases (hkey.mem (k := [slash]) (hk ▸ List.mem_cons_self)) with hp | hp
    · exact hp.slash List.mem_cons_self
    · exact absurd hp (by decide)
  have hpieces : routePieces (cText r.route) = r.key := (if_neg hslash).symm
  rw [note, register, handle, findOrCreate, if_neg hslash, hpieces]
  have hold : ∀ ks, ks ≠ r.key ∨ Function.update m r.key
      (some (((m r.key).getD noHandler).enter r.route r.handler r.verb)) ks ≠ none := by
    intro ks
    by_cases hk : ks = r.key
    · rw [hk, Function.update_self]
      exact Or.inr (Option.some_ne_none _)
    · exact Or.inl hk
  refine ⟨h.holds.modify _ _,Tree.distinct_modify h.distinct _,?_,fun ks hks => ?_⟩
  · rcases hold [] with hne | hsome
    · rw [Function.update_of_ne hne]
      exact h.root
    · exact hsome
  · by_cases hk : ks = r.key
    · rw [hk]
      exact hkey
    · rw [Function.update_of_ne hk] at hks
      exact h.keys ks hks

theorem Kept.mem_leaves_iff (h : Kept inner bp) (ks : List Bytes) (vh : VerbHandler H) :
    (ks,vh) ∈ bp.leaves ↔ inner ks = some vh ∧ Last inner ks := by
  rw [h.distinct.mem_leaves_iff, h.holds.leaf_iff ⟨[],h.root⟩]
  rfl

theorem findOrCreate_moved {urlPrefix : Bytes} (hp : 0 ∉ urlPrefix) {ks : List Bytes}
    (hne : ks ≠ [] ∨ routePieces urlPrefix ≠ []) (hks : ∀ k ∈ ks, Piece k)
    (f : VerbHandler H → VerbHandler H) (root : RouteTableNode H) :
    findOrCreate (cText (blueprintPath urlPrefix (pathText ks))) f root =
      root.modify noHandler f (routePieces urlPrefix ++ ks) := by
  have hpieces := routePieces_blueprintPath urlPrefix hks
  have hslash : blueprintPath urlPrefix (pathText ks) ≠ [slash] := by
    intro heq
    have hkeys : routePieces urlPrefix ++ ks = [] := by
      rw [← hpieces, heq]
      rfl
    obtain ⟨hnil,hnil'⟩ := List.append_eq_nil_iff.mp hkeys
    exact hne.elim (fun h => h hnil') fun h => h hnil
  rw [cText_blueprintPath hp hks, findOrCreate, if_neg hslash, hpieces]

def movedLeaves (urlPrefix : Bytes) (bp : RouteTableNode H) :
    List (List Bytes × VerbHandler H) :=
  bp.leaves.map fun kv => (routePieces urlPrefix ++ kv.1,moved urlPrefix kv.1 kv.2)

theorem addBlueprint_eq (root : RouteTableNode H) {urlPrefix : Bytes} (hp : 0 ∉ urlPrefix)
    (h : ∀ kv ∈ bp.leaves, (kv.1 ≠ [] ∨ routePieces urlPrefix ≠ []) ∧ ∀ k ∈ kv.1, Piece k) :
    addBlueprint root bp urlPrefix = (movedLeaves urlPrefix bp).foldl
      (fun t kv => t.modify noHandler (fun _ => kv.2) kv.1) root := by
  rw [addBlueprint, allRoutes, Tree.foldLeaves_eq, List.foldl_map, movedLeaves, List.foldl_map]
  generalize bp.leaves = l at h
  induction l generalizing root with
  | nil => rfl
  | cons kv l ih =>
    rw [List.forall_mem_cons] at h
    have htext : kv.1.foldl (fun pre key => addSlash pre ++ key) [] = pathText kv.1 := rfl
    rw [List.foldl_cons, List.foldl_cons, ih _ h.2, htext]
    dsimp only
    rw [findOrCreate_moved hp h.1.1 h.1.2, cText_blueprintPath hp h.1.2]
    rfl

theorem updates_movedLeaves (h : Kept inner bp) (urlPrefix : Bytes) :
    Tree.updates (movedLeaves urlPrefix bp) m = mount urlPrefix inner m := by
  have hmem : ∀ ks vh, (ks,vh) ∈ movedLeaves urlPrefix bp ↔ ∃ below vh',
      routePieces urlPrefix ++ below = ks ∧ moved urlPrefix below vh' = vh ∧
        inner below = some vh' ∧ Last inner below := by
    intro ks vh
    rw [movedLeaves, List.mem_map]
    constructor
    · rintro ⟨⟨below,vh'⟩,hleaf,heq⟩
      obtain ⟨rfl,rfl⟩ := Prod.mk.inj heq
      exact ⟨below,vh',rfl,rfl,(h.mem_leaves_iff below vh').mp hleaf⟩
    · rintro ⟨below,vh',rfl,rfl,hleaf⟩
      exact ⟨(below,vh'),(h.mem_leaves_iff below vh').mpr hleaf,rfl⟩
  funext ks
  by_cases hex : ∃ below vh', routePieces urlPrefix ++ below = ks ∧ inner below = some vh' ∧
      Last inner below
  · obtain ⟨below,vh',rfl,hv,hlast⟩ := hex
    have hmount : mount urlPrefix inner m (routePieces urlPrefix ++ below) =
        some (moved urlPrefix below vh') := by
      rw [mount, List.drop_left, if_pos ⟨List.prefix_append _ _,hlast⟩, hv]
      rfl
    rw [hmount]
    apply Tree.updates_of_mem
    · exact ⟨(_,_),(hmem _ _).mpr ⟨below,vh',rfl,rfl,hv,hlast⟩,rfl⟩
    · rintro ⟨ks,vh⟩ hkv rfl
      obtain ⟨below',vh'',heq,rfl,hv',-⟩ := (hmem _ _).mp hkv
      obtain rfl := List.append_cancel_left heq
      rw [hv] at hv'
      rw [Option.some.inj hv']
  · rw [Tree.updates_of_not_mem, mount]
    · split
      next hpre =>
        obtain ⟨⟨below,rfl⟩,hlast⟩ := hpre
        rw [List.drop_left] at hlast ⊢
        cases hv : inner below with
        | none => rfl
        | some vh' => exact absurd ⟨below,vh',rfl,hv,hlast⟩ hex
      next => rfl
    · rintro ⟨ks',vh⟩ hkv rfl
      obtain ⟨below,vh',heq,-,hleaf⟩ := (hmem _ _).mp hkv
      exact hex ⟨below,vh',heq,hleaf⟩

theorem mount_cases {urlPrefix : Bytes} {ks : List Bytes} (h : mount urlPrefix inner m ks ≠ none) :
    (∃ below, ks = routePieces urlPrefix ++ below ∧ inner below ≠ none) ∨ m ks ≠ none := by
  rw [mount] at h
  split at h
  next hpre =>
    obtain ⟨⟨below,rfl⟩,-⟩ := hpre
    rw [List.drop_left, Ne, Option.or_eq_none_iff, not_and_or, Option.map_eq_none_iff] at h
    exact h.imp_left fun hin => ⟨below,rfl,hin⟩
  next => exact Or.inr h

theorem mount_ne_none {urlPrefix : Bytes} {ks : List Bytes} (h : m ks ≠ none) :
    mount urlPrefix inner m ks ≠ none := by
  rw [mount]
  split
  · rw [Ne, Option.or_eq_none_iff]
    exact fun hnone => h hnone.2
  · exact h

/-- Something is registered below the root. -/
def Filled (m : Routes H) : Prop := ∃ ks, ks ≠ [] ∧ m ks ≠ none

theorem Kept.blueprint (h : Kept m root) (hbp : Kept inner bp) {urlPrefix : Bytes}
    (hnul : 0 ∉ urlPrefix) (hp : ∀ k ∈ routePieces urlPrefix, Plain k)
    (hne : routePieces urlPrefix ≠ [] ∨ Filled inner) :
    Kept (mount urlPrefix inner m) (addBlueprint root bp urlPrefix) := by
  have hleaves : ∀ kv ∈ bp.leaves,
      (kv.1 ≠ [] ∨ routePieces urlPrefix ≠ []) ∧ ∀ k ∈ kv.1, Piece k := by
    rintro ⟨ks,vh⟩ hkv
    obtain ⟨hv,hlast⟩ := (hbp.mem_leaves_iff ks vh).mp hkv
    refine ⟨?_,starred_piece (hbp.keys ks (by rw [hv]; exact Option.some_ne_none _))⟩
    rcases hne with hpieces | ⟨ks',hks',hin⟩
    · exact Or.inr hpieces
    · left
      rintro rfl
      exact hks' (hlast ks' hin List.nil_prefix)
  rw [addBlueprint_eq root hnul hleaves]
  refine ⟨?_,?_,mount_ne_none h.root,fun ks hks => ?_⟩
  · rw [← updates_movedLeaves hbp]
    exact h.holds.updates _
  · have hdistinct : ∀ (l : List (List Bytes × VerbHandler H)) (t : RouteTableNode H), t.Distinct →
        (l.foldl (fun t kv => t.modify noHandler (fun _ => kv.2) kv.1) t).Distinct := by
      intro l
      induction l with
      | nil => exact fun t ht => ht
      | cons kv l ih => exact fun t ht => ih _ (Tree.distinct_modify ht _)
    exact hdistinct _ _ h.distinct
  · rcases mount_cases hks with ⟨below,rfl,hbelow⟩ | hks
    · exact Starred.append hp (hbp.keys below hbelow)
    · exact h.keys ks hks

theorem mount_filled (h : Kept inner bp) {urlPrefix : Bytes}
    (hne : routePieces urlPrefix ≠ [] ∨ Filled inner) : Filled (mount urlPrefix inner m) := by
  obtain ⟨⟨ks,vh⟩,hleaf⟩ := List.exists_mem_of_ne_nil _ (Tree.foldLeaves_ne_nil _ _ bp)
  obtain ⟨hv,hlast⟩ := (h.mem_leaves_iff ks vh).mp hleaf
  refine ⟨routePieces urlPrefix ++ ks,?_,?_⟩
  · rw [Ne, List.append_eq_nil_iff]
    rintro ⟨hpieces,rfl⟩
    rcases hne with hne | ⟨ks',hks',hin⟩
    · exact hne hpieces
    · exact hks' (hlast ks' hin List.nil_prefix)
  · rw [mount, List.drop_left, if_pos ⟨List.prefix_append _ _,hlast⟩, hv]
    exact Option.some_ne_none _

theorem note_single (m : Routes H) (urlPrefix : Bytes) {r : Route H} (hkey : r.key ≠ []) :
    note m (.blueprint urlPrefix [.route r]) =
      Function.update m (routePieces urlPrefix ++ r.key)
        (some ⟨[(r.verb,r.handler)],blueprintPath urlPrefix (pathText r.key)⟩) := by
  have hinner : noteAll noRoutes [.route r] =
      Function.update noRoutes r.key (some ⟨[(r.verb,r.handler)],r.route⟩) := by
    rw [noteAll, noteAll, note, noRoutes, if_neg hkey]
    rfl
  rw [note, hinner]
  funext ks
  by_cases hks : ks = routePieces urlPrefix ++ r.key
  · rw [hks, Function.update_self, mount, List.drop_left, Function.update_self, if_pos]
    · rfl
    · refine ⟨List.prefix_append _ _,fun ks' hks' hpre => ?_⟩
      by_contra hne
      rw [Function.update_of_ne hne, noRoutes] at hks'
      split at hks'
      next hnil =>
        subst hnil
        exact hkey (List.prefix_nil.mp hpre)
      next => exact hks' rfl
  · rw [Function.update_of_ne hks, mount]
    split
    next hpre =>
      obtain ⟨⟨below,rfl⟩,hlast⟩ := hpre
      rw [List.drop_left] at hlast ⊢
      have hbelow : below ≠ r.key := fun heq => hks (by rw [heq])
      have hnil : below ≠ [] := by
        rintro rfl
        refine hkey (hlast r.key ?_ List.nil_prefix)
        rw [Function.update_self]
        exact Option.some_ne_none _
      rw [Function.update_of_ne hbelow, noRoutes, if_neg hnil]
      rfl
    next => rfl

mutual

theorem kept_register : ∀ (e : Registration H) {m : Routes H} {root : RouteTableNode H},
    Kept m root → wellFormed e = true → Kept (note m e) (register root e) ∧ Filled (note m e)
  | .route r, m, root, h, hw => by
    rw [wellFormed, decide_eq_true_iff] at hw
    refine ⟨h.route r hw.2,r.key,hw.1,?_⟩
    rw [note, Function.update_self]
    exact Option.some_ne_none _
  | .blueprint urlPrefix inner, m, root, h, hw => by
    rw [wellFormed, decide_eq_true_iff] at hw
    obtain ⟨hnul,hp,hempty,hinner⟩ := hw
    obtain ⟨hbp,hfilled⟩ := kept_registerAll inner kept_empty hinner
    have hne : routePieces urlPrefix ≠ [] ∨ Filled (noteAll noRoutes inner) := by
      cases inner with
      | nil => exact Or.inl (hempty rfl)
      | cons e es => exact Or.inr (hfilled (List.cons_ne_nil _ _))
    rw [note, register]
    exact ⟨h.blueprint hbp hnul hp hne,mount_filled hbp hne⟩

theorem kept_registerAll : ∀ (es : List (Registration H)) {m : Routes H}
    {root : RouteTableNode H}, Kept m root → allWellFormed es = true →
    Kept (noteAll m es) (registerAll root es) ∧ (es ≠ [] → Filled (noteAll m es))
  | [], m, root, h, _ => ⟨h,fun hne => absurd rfl hne⟩
  | e :: es, m, root, h, hw => by
    rw [allWellFormed, Bool.and_eq_true] at hw
    obtain ⟨he,hfilled⟩ := kept_register e h hw.1
    obtain ⟨hes,hrest⟩ := kept_registerAll es he hw.2
    rw [noteAll, registerAll]
    refine ⟨hes,fun _ => ?_⟩
    cases es with
    | nil => exact hfilled
    | cons e' es => exact hrest (List.cons_ne_nil _ _)

end

end Maps

def server (es : List (Registration H)) : RouteTableNode H := registerAll emptyNode es

/-- What is registered in the end, by the path alone. -/
noncomputable def routes (es : List (Registration H)) : Routes H := noteAll noRoutes es

def nested : List (Registration ℕ) :=
  [.blueprint (ascii "/api") [.route ⟨.GET,ascii "/u",1⟩,.route ⟨.GET,ascii "/u/new",2⟩,
    .blueprint (ascii "v") [.route ⟨.ANY,ascii "/x",3⟩,.route ⟨.GET,ascii "/*",4⟩]]]

-- The route of the inner node is not taken along.
example : call (server nested) .GET (ascii "/api/u") = .notFound := by decide

example : call (server nested) .GET (ascii "/api/v/y/z/") =
    .handled 4 (ascii "/api/v/*") [] (ascii "y/z/") := by
  decide

-- An empty blueprint takes the handlers of its prefix away.
example : call (server (.route ⟨.GET,ascii "/api",0⟩ :: [.blueprint (ascii "/api") []])) .GET
    (ascii "/api") = (.verbNotImplment : Reply ℕ) := by
  decide

end WdHttp.BluePrint
