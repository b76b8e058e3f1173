import WdHttp.CText
import Mathlib.Data.Finmap

/-!
# A store of hashes

The value at a key is a finite map from fields to values; a key that was
never written holds the empty map. `HSET` replaces one field of one key.
`HGETALL` lists every field once, followed by its value, in an order that is
not specified.
-/

set_option autoImplicit false

namespace WdHttp.RedisHash
open WdHttp.CText

abbrev Entry := Sigma fun _ : Str => Str
abbrev Hash := Finmap fun _ : Str => Str
abbrev Store := Str → Hash

def hset (st : Store) (key field value : Str) : Store :=
  Function.update st key ((st key).insert field value)

def hget (st : Store) (key field : Str) : Option Str := (st key).lookup field

def Listing (h : Hash) (l : List Entry) : Prop := (l : Multiset Entry) = h.entries

instance (h : Hash) (l : List Entry) : Decidable (Listing h l) :=
  inferInstanceAs (Decidable (_ = _))

def hgetall (l : List Entry) : List Str := l.flatMap fun e => [e.1,e.2]

@[simp] theorem hget_hset_self (st : Store) (key field value : Str) :
    hget (hset st key field value) key field = some value := by
  simp [hget, hset]

theorem hget_hset_field (st : Store) (key field field' value : Str) (h : field' ≠ field) :
    hget (hset st key field value) key field' = hget st key field' := by
  simp [hget, hset, Finmap.lookup_insert_of_ne _ h]

theorem hset_other (st : Store) (key key' field value : Str) (h : key' ≠ key) :
    hset st key field value key' = st key' := Function.update_of_ne h _ _

theorem hget_hset (st : Store) (key key' field field' value : Str) :
    hget (hset st key field value) key' field' =
      if key' = key ∧ field' = field then some value else hget st key' field' := by
  by_cases hk : key' = key
  · subst hk
    by_cases hf : field' = field
    · subst hf
      simp
    · simp [hf, hget_hset_field]
  · simp [hk, hget, hset_other]

theorem listing_mem (h : Hash) (l : List Entry) (hl : Listing h l) (f v : Str) :
    (⟨f,v⟩ : Entry) ∈ l ↔ h.lookup f = some v := by
  have hm := Finmap.mem_lookup_iff (s := h) (a := f) (b := v)
  rw [← hl, Multiset.mem_coe] at hm
  exact hm.symm

theorem listing_keys (h : Hash) (l : List Entry) (hl : Listing h l) :
    ((l.map Sigma.fst : List Str) : Multiset Str) = h.keys.val := by
  change _ = h.entries.keys
  rw [← hl]
  rfl

/-- Counting listed fields counts fields of the hash. -/
theorem listing_count (h : Hash) (l : List Entry) (hl : Listing h l) (p : Str → Bool) :
    l.countP (fun e => p e.1) = (h.keys.filter fun f => p f = true).card := by
  have hk := listing_keys h l hl
  have hc : l.countP (fun e => p e.1) = (l.map Sigma.fst).countP p := by
    rw [List.countP_map]
    rfl
  rw [hc, Finset.card_def, Finset.filter_val, ← Multiset.countP_eq_card_filter, ← hk,
    Multiset.coe_countP]
  simp

theorem exists_listing (h : Hash) : ∃ l, Listing h l :=
  ⟨h.entries.toList,Multiset.coe_toList _⟩

end WdHttp.RedisHash
