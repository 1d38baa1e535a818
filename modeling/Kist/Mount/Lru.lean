import Kist.Lib.Dict

/-!
# The chunk cache of a mount

`Lru` of `kist-mount::corefs`: a map, and the order in which its keys were used last, the most
recent one first. What goes beyond the capacity is removed from the end of the order.

* `Lru.Fits`: the map and the order hold the same keys, each of them once, and no more than the
  capacity. `Lru.Fits.run` says that this is so after any accesses to a new cache.
* `Lru.Holds`: every value is one that belongs to its key.
-/

namespace Kist

/-- `Lru`. -/
structure Lru (κ ν : Type*) where
  cap : ℕ
  map : Dict κ ν
  order : List κ

namespace Lru

variable {κ ν : Type*}

/-- `Lru::new`. -/
def new (cap : ℕ) : Lru κ ν := ⟨max cap 1, ∅, []⟩

variable [DecidableEq κ]

/-- `touch`. -/
def touch (l : Lru κ ν) (id : κ) : Lru κ ν :=
  if id ∈ l.order then { l with order := id :: l.order.erase id } else l

/-- `get`. -/
def get (l : Lru κ ν) (id : κ) : Option ν × Lru κ ν :=
  match l.map.lookup id with
  | none => (none, l)
  | some data => (some data, l.touch id)

/-- The loop of `put`: the victims are taken from the end of the order. -/
def evict (l : Lru κ ν) : Lru κ ν :=
  if l.order.length > l.cap then
    match _h : l.order.getLast? with
    | none => l
    | some victim => evict { l with order := l.order.dropLast, map := l.map.erase victim }
  else l
  termination_by l.order.length
  decreasing_by
    have := List.ne_nil_of_mem (List.mem_of_getLast? _h)
    simp [List.length_pos_iff.2 this]

/-- `put`. -/
def put (l : Lru κ ν) (id : κ) (data : ν) : Lru κ ν :=
  if (l.map.lookup id).isSome then l.touch id
  else evict { l with map := l.map.insert id data, order := id :: l.order }

/-- What a reader does to the cache. -/
inductive Access (κ ν : Type*)
  | get (id : κ)
  | put (id : κ) (data : ν)

/-- The cache after an access. -/
def access (l : Lru κ ν) : Access κ ν → Lru κ ν
  | .get id => (l.get id).2
  | .put id data => l.put id data

/-- The cache after the accesses of a list, one after the other. -/
def run (l : Lru κ ν) (accesses : List (Access κ ν)) : Lru κ ν :=
  accesses.foldl access l

/-! ### The keys -/

/-- The map and the order hold the same keys, each of them once. -/
structure Tracks (l : Lru κ ν) : Prop where
  mem_iff (id : κ) : id ∈ l.order ↔ id ∈ l.map
  nodup : l.order.Nodup

/-- Moreover there are no more of them than the capacity. -/
structure Fits (l : Lru κ ν) : Prop extends Tracks l where
  length_le : l.order.length ≤ l.cap

variable {l : Lru κ ν} {id : κ} {data : ν}

omit [DecidableEq κ] in
theorem Tracks.perm (h : l.Tracks) : l.order.Perm l.map.keys :=
  (List.perm_ext_iff_of_nodup h.nodup l.map.keys_nodup).2 h.mem_iff

omit [DecidableEq κ] in
theorem fits_new (cap : ℕ) : (new cap : Lru κ ν).Fits where
  mem_iff _ := ⟨nofun, nofun⟩
  nodup := .nil
  length_le := Nat.zero_le _

@[simp] theorem cap_touch : (l.touch id).cap = l.cap := by unfold touch; split_ifs <;> rfl

@[simp] theorem map_touch : (l.touch id).map = l.map := by unfold touch; split_ifs <;> rfl

theorem perm_touch (l : Lru κ ν) (id : κ) : (l.touch id).order.Perm l.order := by
  unfold touch
  split_ifs with h
  · exact (List.perm_cons_erase h).symm
  · exact .refl _

theorem Tracks.touch (h : l.Tracks) (id : κ) : (l.touch id).Tracks where
  mem_iff k := by rw [(perm_touch l id).mem_iff, map_touch, h.mem_iff]
  nodup := (perm_touch l id).nodup_iff.2 h.nodup

theorem Fits.touch (h : l.Fits) (id : κ) : (l.touch id).Fits where
  toTracks := h.toTracks.touch id
  length_le := by rw [(perm_touch l id).length_eq, cap_touch]; exact h.length_le

/-- Removing the last key of the order from both keeps them the same. -/
theorem Tracks.dropLast (h : l.Tracks) {victim : κ} (hv : l.order.getLast? = some victim) :
    ({ l with order := l.order.dropLast, map := l.map.erase victim } : Lru κ ν).Tracks where
  mem_iff k := by
    have hsplit : l.order.dropLast ++ [victim] = l.order := List.dropLast_append_getLast? victim hv
    have hnodup : (l.order.dropLast ++ [victim]).Nodup := hsplit.symm ▸ h.nodup
    have hmem : k ∈ l.map ↔ k ∈ l.order.dropLast ∨ k = victim := by
      rw [← h.mem_iff k, ← hsplit, List.mem_append, List.mem_singleton, hsplit]
    have hne : k ∈ l.order.dropLast → k ≠ victim := by
      rintro hk rfl
      exact (List.nodup_append.1 hnodup).2.2 k hk k (List.mem_singleton_self k) rfl
    rw [AList.mem_erase, hmem]
    exact ⟨fun hk => ⟨hne hk, .inl hk⟩, fun ⟨hk, hor⟩ => hor.resolve_right hk⟩
  nodup := h.nodup.sublist (List.dropLast_sublist _)

/-- The loop of `put` stops at the capacity. -/
theorem Tracks.evict (h : l.Tracks) : l.evict.Fits := by
  fun_induction Lru.evict l with
  | case1 l hlen hnone =>
    rw [List.getLast?_eq_none_iff] at hnone
    rw [hnone] at hlen
    cases hlen
  | case2 l hlen victim hv ih => exact ih (h.dropLast hv)
  | case3 l hlen => exact ⟨h, not_lt.1 hlen⟩

theorem Fits.get (h : l.Fits) (id : κ) : (l.get id).2.Fits := by
  unfold Lru.get
  split
  · exact h
  · exact h.touch id

theorem Fits.put (h : l.Fits) (id : κ) (data : ν) : (l.put id data).Fits := by
  unfold Lru.put
  split_ifs with hk
  · exact h.touch id
  · have hnot : id ∉ l.order := by
      rw [h.mem_iff, ← AList.lookup_isSome]
      exact hk
    refine Tracks.evict ⟨fun k => ?_, List.nodup_cons.2 ⟨hnot, h.nodup⟩⟩
    simp only [List.mem_cons, AList.mem_insert, h.mem_iff]

theorem Fits.access (h : l.Fits) : ∀ a : Access κ ν, (l.access a).Fits
  | .get id => h.get id
  | .put id data => h.put id data

/-- **The cache.** After any accesses to a new cache, its map and its order hold the same keys
without duplicates, and no more of them than the capacity. -/
theorem Fits.run (h : l.Fits) (accesses : List (Access κ ν)) : (l.run accesses).Fits := by
  induction accesses generalizing l with
  | nil => exact h
  | cons a accesses ih => exact ih (h.access a)

/-! ### The capacity -/

@[simp] theorem cap_evict : l.evict.cap = l.cap := by
  fun_induction Lru.evict l with
  | case1 l hlen hnone => rfl
  | case2 l hlen victim hv ih => exact ih
  | case3 l hlen => rfl

@[simp] theorem cap_get : (l.get id).2.cap = l.cap := by
  unfold get
  split
  · rfl
  · exact cap_touch

@[simp] theorem cap_put : (l.put id data).cap = l.cap := by
  unfold put
  split_ifs
  · exact cap_touch
  · exact cap_evict

/-! ### The values -/

/-- Every value is one that belongs to its key. -/
def Holds (P : κ → ν → Prop) (l : Lru κ ν) : Prop :=
  ∀ ⦃id data⦄, l.map.lookup id = some data → P id data

variable {P : κ → ν → Prop}

theorem holds_new (cap : ℕ) : (new cap : Lru κ ν).Holds P := nofun

theorem Holds.touch (h : l.Holds P) (id : κ) : (l.touch id).Holds P := fun _ _ hk =>
  h (by rwa [map_touch] at hk)

theorem Holds.evict (h : l.Holds P) : l.evict.Holds P := by
  fun_induction Lru.evict l with
  | case1 l hlen hnone => exact h
  | case2 l hlen victim hv ih =>
    refine ih fun k d hk => ?_
    rw [Dict.lookup_erase'] at hk
    split_ifs at hk
    exact h hk
  | case3 l hlen => exact h

theorem Holds.get (h : l.Holds P) (id : κ) :
    (∀ data, (l.get id).1 = some data → P id data) ∧ (l.get id).2.Holds P := by
  unfold Lru.get
  split
  · exact ⟨nofun, h⟩
  · next data hd =>
    refine ⟨?_, h.touch id⟩
    rintro _ ⟨⟩
    exact h hd

theorem Holds.put (h : l.Holds P) (hp : P id data) : (l.put id data).Holds P := by
  unfold Lru.put
  split_ifs with hk
  · exact h.touch id
  · refine Holds.evict fun k d hd => ?_
    rw [Dict.lookup_insert'] at hd
    split_ifs at hd with hkey
    · cases hd
      exact hkey ▸ hp
    · exact h hd

end Lru
end Kist
