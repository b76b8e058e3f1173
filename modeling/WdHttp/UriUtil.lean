import WdHttp.CodeUtil

/-!
# Pairs in a query

`UriUtil::split_query` and `Urlencode::parse_post_kv` of wfrest have one body. A name counts
the first time it occurs, a value ends at a second `=`, and nothing is decoded.
-/

set_option autoImplicit false

namespace WdHttp.UriUtil
open WdHttp.PosixFile WdHttp.StrUtil WdHttp.CodeUtil

def amp : UInt8 := 38

abbrev Pairs := List (Bytes × Bytes)

/-- The map after one more element between two `&`. -/
def addPair (res : Pairs) (ele : Bytes) : Pairs :=
  match splitPiece equals ele with
  | [] => res
  | key :: vals =>
    if key = [] ∨ (res.lookup key).isSome then res
    else res ++ [(key,vals.headD [])]

def splitPairs (text : Bytes) : Pairs := (splitPiece amp text).foldl addPair []

def splitQuery (query : Bytes) : Pairs := splitPairs query

def parsePostKv (body : Bytes) : Pairs := splitPairs body

def nameOf (ele : Bytes) : Bytes := ele.takeWhile (· ≠ equals)

def valueOf (ele : Bytes) : Bytes := ((ele.dropWhile (· ≠ equals)).drop 1).takeWhile (· ≠ equals)

theorem addPair_eq (res : Pairs) (ele : Bytes) :
    addPair res ele =
      if nameOf ele = [] ∨ (res.lookup (nameOf ele)).isSome then res
      else res ++ [(nameOf ele,valueOf ele)] := by
  by_cases he : ele = []
  · subst he
    rfl
  · have hsplit : splitPiece equals ele = nameOf ele ::
        if ele.dropWhile (· ≠ equals) = [] then []
        else splitFrom equals [] (ele.dropWhile (· ≠ equals)).tail := by
      rw [splitPiece, if_neg he]
      exact splitFrom_takeWhile equals ele
    have hval : (if ele.dropWhile (· ≠ equals) = [] then []
        else splitFrom equals [] (ele.dropWhile (· ≠ equals)).tail).headD [] = valueOf ele := by
      rw [valueOf, List.drop_one]
      split
      next hd =>
        rw [hd]
        rfl
      next =>
        rw [splitFrom_takeWhile]
        rfl
    rw [addPair, hsplit]
    simp only [hval]

theorem lookup_addPair (res : Pairs) (ele k : Bytes) (hk : k ≠ []) :
    (addPair res ele).lookup k =
      (res.lookup k).or (if nameOf ele = k then some (valueOf ele) else none) := by
  rw [addPair_eq]
  by_cases hn : nameOf ele = k
  · subst hn
    rw [if_pos rfl]
    cases hl : res.lookup (nameOf ele) with
    | none =>
      rw [if_neg (by simp [hk]), List.lookup_append, hl]
      exact List.lookup_cons_self
    | some v =>
      rw [if_pos (Or.inr Option.isSome_some), hl]
      rfl
  · rw [if_neg hn, Option.or_none]
    split
    · rfl
    · rw [List.lookup_append, List.lookup_cons, beq_false_of_ne (Ne.symm hn)]
      exact Option.or_none

theorem lookup_splitPairs (text k : Bytes) (hk : k ≠ []) :
    (splitPairs text).lookup k =
      ((splitPiece amp text).find? fun e => nameOf e = k).map valueOf := by
  rw [splitPairs]
  induction splitPiece amp text using List.reverseRecOn with
  | nil => rfl
  | append_singleton es e ih =>
    rw [List.foldl_append, List.find?_append, Option.map_or, ← ih]
    refine (lookup_addPair _ e k hk).trans (congrArg _ ?_)
    by_cases hn : nameOf e = k
    · rw [if_pos hn, List.find?_cons_of_pos (by simpa using hn)]
      rfl
    · rw [if_neg hn, List.find?_cons_of_neg (by simpa using hn)]
      rfl

section Written

def pairText (kv : Bytes × Bytes) : Bytes := urlEncode kv.1 ++ equals :: urlEncode kv.2

/-- Pairs as a client writes them, both sides encoded. -/
def queryText (pairs : Pairs) : Bytes := [amp].intercalate (pairs.map pairText)

theorem not_mem_urlEncode {c : UInt8} (hc : c = amp ∨ c = equals) (s : Bytes) :
    c ∉ urlEncode s := by
  intro h
  have hk := mem_urlEncode h
  rcases hc with rfl | rfl
  · exact absurd hk (by decide)
  · exact absurd hk (by decide)

theorem amp_not_mem_pairText (kv : Bytes × Bytes) : amp ∉ pairText kv := by
  rw [pairText, List.mem_append, List.mem_cons]
  rintro (h | h | h)
  · exact not_mem_urlEncode (Or.inl rfl) _ h
  · exact absurd h (by decide)
  · exact not_mem_urlEncode (Or.inl rfl) _ h

theorem nameOf_pairText (kv : Bytes × Bytes) : nameOf (pairText kv) = urlEncode kv.1 := by
  have hplain : ∀ c ∈ urlEncode kv.1, (c ≠ equals) = True := by
    intro c hc
    exact eq_true fun h => not_mem_urlEncode (Or.inr h) kv.1 hc
  rw [nameOf, pairText, List.takeWhile_append_of_pos (by simpa using hplain),
    List.takeWhile_cons_of_neg (by simp), List.append_nil]

theorem valueOf_pairText (kv : Bytes × Bytes) : valueOf (pairText kv) = urlEncode kv.2 := by
  have hplain : ∀ s, ∀ c ∈ urlEncode s, c ≠ equals := by
    intro s c hc h
    exact not_mem_urlEncode (Or.inr h) s hc
  rw [valueOf, pairText, List.dropWhile_append_of_pos (by simpa using hplain kv.1),
    List.dropWhile_cons_of_neg (by simp), List.drop_one, List.tail_cons,
    List.takeWhile_eq_self_iff]
  simpa using hplain kv.2

theorem find?_pairText (pairs : Pairs) (k : Bytes) :
    (((pairs.map pairText).find? fun e => nameOf e = urlEncode k).map valueOf).map urlDecode =
      pairs.lookup k := by
  induction pairs with
  | nil => rfl
  | cons kv pairs ih =>
    rw [List.map_cons, List.lookup_cons]
    by_cases hk : kv.1 = k
    · rw [List.find?_cons_of_pos (by simp [nameOf_pairText, hk]), Option.map_some, Option.map_some,
        valueOf_pairText, urlDecode_urlEncode, hk, beq_self_eq_true]
    · have hname : nameOf (pairText kv) ≠ urlEncode k := by
        rw [nameOf_pairText]
        exact fun h => hk (urlEncode_injective h)
      rw [List.find?_cons_of_neg (by simpa using hname), ih, beq_false_of_ne (Ne.symm hk)]

/-- Every value written is read back under its name, of several the first, once it is decoded. -/
theorem lookup_queryText (pairs : Pairs) (k : Bytes) (hk : k ≠ []) :
    ((splitQuery (queryText pairs)).lookup (urlEncode k)).map urlDecode = pairs.lookup k := by
  have hne : urlEncode k ≠ [] := by
    intro h
    exact hk (urlEncode_injective h)
  have hpieces : splitPiece amp (queryText pairs) = pairs.map pairText := by
    apply splitPiece_intercalate
    · intro e he
      obtain ⟨kv,-,rfl⟩ := List.mem_map.mp he
      exact amp_not_mem_pairText kv
    · intro h
      have hlen := congrArg List.length (congrArg List.flatten h)
      cases pairs with
      | nil => cases h
      | cons kv pairs => simp [pairText] at hlen
  rw [splitQuery, lookup_splitPairs _ _ hne, hpieces, find?_pairText]

theorem lookup_queryText_second :
    ((splitQuery (queryText [(ascii "a",ascii "1"),(ascii "user name",ascii "x=y&z"),
      (ascii "a",ascii "2")])).lookup (urlEncode (ascii "user name"))).map urlDecode =
      some (ascii "x=y&z") :=
  (lookup_queryText _ (ascii "user name") (by decide)).trans (by decide)

end Written

end WdHttp.UriUtil
