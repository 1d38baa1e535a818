import Mathlib.Data.List.AList
import Mathlib.Tactic

/-!
# Dictionaries

Finite maps with values of one type: Mathlib's association lists, which carry the proof that no
key is bound twice. Added here are `collect`, the map built from a list of bindings in which a
later binding replaces an earlier one, and the lookup lemmas that proofs about stores use.
-/

/-- A finite map from `κ` to `ν`. -/
abbrev Dict (κ ν : Type*) := AList fun _ : κ => ν

namespace Dict

variable {κ ν : Type*} [DecidableEq κ]

/-- The map of a list of bindings; the last binding of a key counts. -/
def collect (l : List (κ × ν)) : Dict κ ν :=
  l.foldl (fun d b => d.insert b.1 b.2) ∅

theorem lookup_insert' (d : Dict κ ν) (a k : κ) (v : ν) :
    (d.insert a v).lookup k = if k = a then some v else d.lookup k := by
  split_ifs with h
  · rw [h, AList.lookup_insert]
  · exact AList.lookup_insert_ne h

theorem lookup_erase' (d : Dict κ ν) (a k : κ) :
    (d.erase a).lookup k = if k = a then none else d.lookup k := by
  split_ifs with h
  · rw [h, AList.lookup_erase]
  · exact AList.lookup_erase_ne h

/-- A binding of the map is one of the list. -/
theorem mem_of_lookup_collect {l : List (κ × ν)} {k : κ} {v : ν}
    (h : (collect l).lookup k = some v) : (k, v) ∈ l := by
  have aux : ∀ (l : List (κ × ν)) (d : Dict κ ν),
      (l.foldl (fun d b => d.insert b.1 b.2) d).lookup k = some v →
        (k, v) ∈ l ∨ d.lookup k = some v := by
    intro l
    induction l with
    | nil => exact fun d hd => .inr hd
    | cons b l ih =>
      intro d hd
      rcases ih _ hd with hm | hm
      · exact .inl (List.mem_cons_of_mem _ hm)
      rw [lookup_insert'] at hm
      split_ifs at hm with hk
      · cases hm
        exact .inl (by rw [hk]; exact List.mem_cons_self)
      · exact .inr hm
  rcases aux l ∅ h with hm | hm
  · exact hm
  · cases hm

/-- In a list that binds no key twice, every binding counts. -/
theorem lookup_collect_of_mem {l : List (κ × ν)} (hnodup : (l.map Prod.fst).Nodup) {k : κ} {v : ν}
    (h : (k, v) ∈ l) : (collect l).lookup k = some v := by
  have hkeep : ∀ (l : List (κ × ν)) (d : Dict κ ν), k ∉ l.map Prod.fst →
      (l.foldl (fun d b => d.insert b.1 b.2) d).lookup k = d.lookup k := by
    intro l
    induction l with
    | nil => exact fun _ _ => rfl
    | cons b l ih =>
      intro d hk
      rw [List.map_cons, List.mem_cons, not_or] at hk
      rw [List.foldl_cons, ih _ hk.2, lookup_insert', if_neg hk.1]
  have aux : ∀ (l : List (κ × ν)) (d : Dict κ ν), (l.map Prod.fst).Nodup → (k, v) ∈ l →
      (l.foldl (fun d b => d.insert b.1 b.2) d).lookup k = some v := by
    intro l
    induction l with
    | nil => exact fun _ _ h => absurd h List.not_mem_nil
    | cons b l ih =>
      intro d hnodup h
      rw [List.map_cons, List.nodup_cons] at hnodup
      rcases List.mem_cons.1 h with rfl | h
      · rw [List.foldl_cons, hkeep _ _ hnodup.1, lookup_insert', if_pos rfl]
      · exact ih _ hnodup.2 h
  exact aux l ∅ hnodup h

/-! ### Keys -/

/-- The map with its keys renamed. -/
def mapKeys (f : κ → κ) (d : Dict κ ν) : Dict κ ν := collect (d.entries.map fun b => (f b.1, b.2))

/-- Where no two keys get one name, the bindings stay under the new names. -/
theorem lookup_mapKeys {f : κ → κ} {d : Dict κ ν}
    (hinj : ∀ a ∈ d, ∀ b ∈ d, f a = f b → a = b) {k : κ} {v : ν} :
    (d.mapKeys f).lookup k = some v ↔ ∃ a, f a = k ∧ d.lookup a = some v := by
  constructor
  · intro h
    obtain ⟨b, hb, he⟩ := List.mem_map.1 (mem_of_lookup_collect h)
    obtain ⟨rfl, rfl⟩ := Prod.mk.inj he
    exact ⟨b.1, rfl, AList.mem_lookup_iff.2 hb⟩
  · rintro ⟨a, rfl, h⟩
    refine lookup_collect_of_mem ?_ (List.mem_map.2 ⟨⟨a, v⟩, AList.mem_lookup_iff.1 h, rfl⟩)
    rw [List.map_map]
    have hkeys : (d.entries.map (Prod.fst ∘ fun b => (f b.1, b.2))) = d.keys.map f := by
      rw [AList.keys, List.keys, List.map_map]
      rfl
    rw [hkeys]
    exact d.keys_nodup.map_on fun a ha b hb => hinj a ha b hb

/-! ### Values -/

/-- The map with `f` applied to its values. -/
def mapValues {ν' : Type*} (f : ν → ν') (d : Dict κ ν) : Dict κ ν' where
  entries := d.entries.map fun b => ⟨b.1, f b.2⟩
  nodupKeys := by
    rw [List.NodupKeys, List.keys, List.map_map]
    exact d.nodupKeys

theorem lookup_mapValues {ν' : Type*} (f : ν → ν') (d : Dict κ ν) (k : κ) :
    (d.mapValues f).lookup k = (d.lookup k).map f := by
  have aux : ∀ entries : List (Sigma fun _ : κ => ν),
      List.dlookup k (entries.map fun b => (⟨b.1, f b.2⟩ : Sigma fun _ : κ => ν')) =
        (show Option ν from List.dlookup k entries).map f := by
    intro entries
    induction entries with
    | nil => rfl
    | cons b entries ih =>
      obtain ⟨a, v⟩ := b
      by_cases h : k = a
      · subst h
        simp
      · rw [List.map_cons, List.dlookup_cons_ne _ _ h, List.dlookup_cons_ne _ _ h, ih]
  exact aux d.entries

end Dict
