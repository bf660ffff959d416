import Mathlib.Data.Finset.Card
import Mathlib.Data.List.Induction
import ScriptFront.Tree.Entries

/-!
# Pairs and entries

A hash written as pairs has the last pair of each key. So its entries have what all pairs have, and
different keys; pairs with different keys are the entries themselves. Pairs are added behind those
that are there, so the induction is from the right.

`Keeps` is what an insertion preserves of all that were made so far: which keys there are and in
which order, and from which pair each key and each value is. `ofPairs_keeps_order` puts it together.
-/

namespace ScriptFront.Entries

variable {entries : Entries} {pairs : List (Expr × Expr)} {key value : Expr} {P Q : Expr → Prop}

theorem insert_new (h : key.render ∉ entries.map (·.1.render)) :
    entries.insert key value = entries ++ [(key, value)] := by
  induction entries with
  | nil => rfl
  | cons entry rest ih =>
    obtain ⟨k, v⟩ := entry
    obtain ⟨hk, hrest⟩ := not_or.1 (mt List.mem_cons.2 h)
    rw [insert, if_neg (Ne.symm hk), ih hrest]
    rfl

theorem forall_insert (h : ∀ e ∈ entries, P e.1 ∧ Q e.2) (hkey : P key) (hvalue : Q value) :
    ∀ e ∈ entries.insert key value, P e.1 ∧ Q e.2 := by
  induction entries with
  | nil => simp [insert, hkey, hvalue]
  | cons entry rest ih =>
    obtain ⟨k, v⟩ := entry
    obtain ⟨hentry, hrest⟩ := List.forall_mem_cons.1 h
    unfold insert
    split
    · exact List.forall_mem_cons.2 ⟨⟨hentry.1, hvalue⟩, hrest⟩
    · exact List.forall_mem_cons.2 ⟨hentry, ih hrest⟩

theorem forall_ofPairs (h : ∀ p ∈ pairs, P p.1 ∧ Q p.2) : ∀ e ∈ ofPairs pairs, P e.1 ∧ Q e.2 := by
  induction pairs using List.reverseRecOn with
  | nil => simp
  | append_singleton pairs pair ih =>
    obtain ⟨hpairs, hpair⟩ := List.forall_mem_append.1 h
    obtain ⟨hkey, hvalue⟩ := hpair pair List.mem_cons_self
    rw [ofPairs_concat]
    exact forall_insert (ih hpairs) hkey hvalue

theorem nodup_insert (h : (entries.map (·.1.render)).Nodup) :
    ((entries.insert key value).map (·.1.render)).Nodup := by
  rw [keys_insert]
  split
  · exact h
  · rename_i hnew
    refine List.nodup_append.2 ⟨h, by simp, fun k hk k' hk' heq => hnew ?_⟩
    rwa [← List.mem_singleton.1 hk', ← heq]

theorem nodup_ofPairs (pairs : List (Expr × Expr)) :
    ((ofPairs pairs).map (·.1.render)).Nodup := by
  induction pairs using List.reverseRecOn with
  | nil => simp
  | append_singleton pairs pair ih =>
    rw [ofPairs_concat]
    exact nodup_insert ih

/-- Pairs with different keys are the entries that they make. -/
theorem ofPairs_eq_self (h : (pairs.map (·.1.render)).Nodup) : ofPairs pairs = pairs := by
  induction pairs using List.reverseRecOn with
  | nil => rfl
  | append_singleton pairs pair ih =>
    rw [List.map_append, List.nodup_append] at h
    obtain ⟨hpairs, -, hdisjoint⟩ := h
    have hnew : pair.1.render ∉ pairs.map (·.1.render) :=
      fun hmem => hdisjoint _ hmem _ List.mem_cons_self rfl
    rw [ofPairs_concat, ih hpairs, insert_new hnew]

/-! ## Insertion order -/

/-- An insertion adds its key behind the others, or none if one with its rendering is there. -/
theorem map_fst_insert (entries : Entries) (key value : Expr) :
    (entries.insert key value).map (·.1) =
      if key.render ∈ entries.map (·.1.render) then entries.map (·.1)
      else entries.map (·.1) ++ [key] := by
  induction entries with
  | nil => rfl
  | cons entry rest ih =>
    obtain ⟨k, v⟩ := entry
    by_cases h : k.render = key.render
    · simp [insert, h]
    · have h' : key.render ≠ k.render := Ne.symm h
      simp only [insert, if_neg h, List.map_cons, ih, List.mem_cons, h', false_or]
      split <;> simp

theorem find?_of_mem (h : (entries.map (·.1.render)).Nodup) {entry : Expr × Expr}
    (hentry : entry ∈ entries) : entries.find? entry.1.render = some entry.2 := by
  induction entries with
  | nil => cases hentry
  | cons head rest ih =>
    obtain ⟨k, v⟩ := head
    obtain ⟨hhead, hrest⟩ := List.nodup_cons.1 h
    rcases List.mem_cons.1 hentry with rfl | hmem
    · exact if_pos rfl
    · have hne : k.render ≠ entry.1.render := fun heq =>
        hhead (List.mem_map.2 ⟨entry, hmem, heq.symm⟩)
      rw [find?, if_neg hne]
      exact ih hrest hmem

/-- The first pair whose key renders like this. -/
def first? (pairs : List (Expr × Expr)) (key : String) : Option (Expr × Expr) :=
  pairs.find? (·.1.render = key)

/-- The last pair whose key renders like this. -/
def last? (pairs : List (Expr × Expr)) (key : String) : Option (Expr × Expr) :=
  first? pairs.reverse key

/-- What the entries keep of the pairs that were inserted. -/
structure Keeps (pairs : List (Expr × Expr)) (entries : Entries) : Prop where
  /-- The renderings as they first came. -/
  order : entries.map (·.1.render) = (pairs.map (·.1.render)).eraseDups
  keys : ∀ key ∈ entries.map (·.1), (first? pairs key.render).map (·.1) = some key
  values : ∀ key, entries.find? key = (last? pairs key).map (·.2)

theorem Keeps.nil : Keeps [] [] := ⟨rfl, by simp, fun _ => rfl⟩

theorem Keeps.mem_keys {k : String} (h : Keeps pairs entries) :
    k ∈ entries.map (·.1.render) ↔ k ∈ pairs.map (·.1.render) := by
  rw [h.order, List.mem_eraseDups]

theorem Keeps.insert (h : Keeps pairs entries) (key value : Expr) :
    Keeps (pairs ++ [(key, value)]) (entries.insert key value) where
  order := by
    rw [keys_insert, List.map_append, List.eraseDups_append, ← h.order]
    by_cases hk : key.render ∈ entries.map (·.1.render)
    · simp [hk, h.mem_keys.1 hk, List.removeAll]
    · simp [hk, mt h.mem_keys.2 hk, List.removeAll, List.eraseDups_cons]
  keys := by
    intro k hk
    have hold (hmem : k ∈ entries.map (·.1)) :
        (first? (pairs ++ [(key, value)]) k.render).map (·.1) = some k := by
      have hfirst := h.keys k hmem
      cases hpair : first? pairs k.render with
      | none => simp [hpair] at hfirst
      | some pair =>
        rw [hpair] at hfirst
        rw [first?, List.find?_append, show List.find? _ pairs = some pair from hpair]
        exact hfirst
    rw [map_fst_insert] at hk
    split at hk
    · exact hold hk
    · rename_i hnew
      rcases List.mem_append.1 hk with hmem | hmem
      · exact hold hmem
      · obtain rfl := List.mem_singleton.1 hmem
        have hnone : pairs.find? (·.1.render = k.render) = none := by
          refine List.find?_eq_none.2 fun pair hpair hrender => hnew (h.mem_keys.2 ?_)
          exact List.mem_map.2 ⟨pair, hpair, of_decide_eq_true hrender⟩
        rw [first?, List.find?_append, hnone]
        simp
  values := by
    intro k
    rw [find?_insert, h.values]
    by_cases hk : key.render = k <;> simp [first?, last?, hk]

theorem keeps_ofPairs (pairs : List (Expr × Expr)) : Keeps pairs (ofPairs pairs) := by
  induction pairs using List.reverseRecOn with
  | nil => exact .nil
  | append_singleton pairs pair ih =>
    rw [ofPairs_concat]
    exact ih.insert pair.1 pair.2

/-- There are as many entries as renderings. -/
theorem length_ofPairs (pairs : List (Expr × Expr)) :
    (ofPairs pairs).length = (pairs.map (·.1.render)).toFinset.card := by
  have hkeys : (pairs.map (·.1.render)).toFinset = ((ofPairs pairs).map (·.1.render)).toFinset := by
    ext k
    rw [List.mem_toFinset, List.mem_toFinset, (keeps_ofPairs pairs).mem_keys]
  rw [hkeys, List.toFinset_card_of_nodup (nodup_ofPairs pairs), List.length_map]

/-- The pairs become one entry. -/
def Merges (a b : Expr × Expr) : Prop := (ofPairs [a, b]).length = 1

theorem merges_iff {a b : Expr × Expr} : Merges a b ↔ a.1.render = b.1.render := by
  unfold Merges ofPairs
  by_cases h : a.1.render = b.1.render <;> simp [insert, h]

/-- Entries come from the pairs in the order in which their renderings first did, one for each. An
entry has the first key with its rendering and the last value, and the last value is what is found
for a rendering. -/
theorem ofPairs_keeps_order (pairs : List (Expr × Expr)) :
    ((ofPairs pairs).map (·.1.render)).Nodup ∧
    (ofPairs pairs).map (·.1.render) = (pairs.map (·.1.render)).eraseDups ∧
    (∀ entry ∈ ofPairs pairs,
      (first? pairs entry.1.render).map (·.1) = some entry.1 ∧
      (last? pairs entry.1.render).map (·.2) = some entry.2) ∧
    (∀ key, (ofPairs pairs).find? key = (last? pairs key).map (·.2)) ∧
    (ofPairs pairs).length = (pairs.map (·.1.render)).toFinset.card := by
  have hkeeps := keeps_ofPairs pairs
  have hnodup := nodup_ofPairs pairs
  refine ⟨hnodup, hkeeps.order, fun entry hentry => ⟨?_, ?_⟩, hkeeps.values, length_ofPairs pairs⟩
  · exact hkeeps.keys _ (List.mem_map_of_mem hentry)
  · rw [← hkeeps.values, find?_of_mem hnodup hentry]

end ScriptFront.Entries
