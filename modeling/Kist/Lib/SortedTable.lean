import Mathlib.Data.List.Destutter
import Mathlib.Data.List.Sort
import Mathlib.Tactic

/-!
# Sorted tables

Tables of records in increasing order of a key, over any record type and any linearly ordered key.

* `sortDedup` is a stable sort followed by the removal of repeated keys, which keeps the first
  record of each key;
* `mergeNew` merges two tables record by record, the second one winning on a common key;
* `search` is binary search on the table.

Each operation is described by the records it holds: `sorted_sortDedup`, `exists_mem_sortDedup`,
`sorted_mergeNew`, `mem_mergeNew`, `search_eq_some_iff`.
-/

namespace SortedTable

variable {α κ : Type*} [LinearOrder κ] (key : α → κ)

/-- The keys increase strictly. -/
def Sorted (l : List α) : Prop :=
  l.Pairwise fun a b => key a < key b

/-- Two records of a sorted table with the same key are the same record. -/
theorem Sorted.eq_of_key_eq {l : List α} (h : Sorted key l) {a b : α} (ha : a ∈ l) (hb : b ∈ l)
    (hab : key a = key b) : a = b := by
  induction l with
  | nil => cases ha
  | cons x xs ih =>
    obtain ⟨hx, hxs⟩ := List.pairwise_cons.1 h
    rcases List.mem_cons.1 ha with rfl | ha'
    · rcases List.mem_cons.1 hb with rfl | hb'
      · rfl
      · exact absurd hab (hx b hb').ne
    · rcases List.mem_cons.1 hb with rfl | hb'
      · exact absurd hab (hx a ha').ne'
      · exact ih hxs ha' hb'

/-! ### Sorting and removing repeated keys -/

/-- Remove each record whose key is the key of the last record kept. -/
def dedupRuns (l : List α) : List α :=
  l.destutter fun a b => key a ≠ key b

/-- A stable sort by key, then one record for each key: the one that came first. -/
def sortDedup (l : List α) : List α :=
  dedupRuns key (l.insertionSort fun a b => key a ≤ key b)

theorem pairwise_insertionSort_key (l : List α) :
    (l.insertionSort fun a b => key a ≤ key b).Pairwise fun a b => key a ≤ key b :=
  have : IsTrans α fun a b => key a ≤ key b := ⟨fun _ _ _ => le_trans⟩
  have : Std.Total fun a b : α => key a ≤ key b := ⟨fun _ _ => le_total _ _⟩
  List.pairwise_insertionSort _ l

theorem sorted_dedupRuns {l : List α} (h : l.Pairwise fun a b => key a ≤ key b) :
    Sorted key (dedupRuns key l) := by
  have hle : (dedupRuns key l).Pairwise fun a b => key a ≤ key b :=
    h.sublist (List.destutter_sublist _ _)
  have hne : (dedupRuns key l).IsChain fun a b => key a ≠ key b := List.isChain_destutter _ _
  have hlt : (dedupRuns key l).IsChain fun a b => key a < key b := by
    have hc := hle.isChain
    generalize dedupRuns key l = m at hne hc
    induction m with
    | nil => exact .nil
    | cons a m ih =>
      cases m with
      | nil => exact .singleton _
      | cons b m =>
        rw [List.isChain_cons_cons] at hne hc ⊢
        exact ⟨lt_of_le_of_ne hc.1 hne.1, ih hne.2 hc.2⟩
  have : IsTrans α fun a b => key a < key b := ⟨fun _ _ _ => lt_trans⟩
  exact List.isChain_iff_pairwise.1 hlt

/-- Every record is dropped for one with its key that stands before it. -/
theorem exists_before_mem_dedupRuns {R : α → α → Prop} {l : List α} (hR : ∀ a, R a a)
    (hl : l.Pairwise R) {a : α} (h : a ∈ l) : ∃ b ∈ dedupRuns key l, key b = key a ∧ R b a := by
  have aux : ∀ (l : List α) (x a : α), (x :: l).Pairwise R → a ∈ x :: l →
      ∃ b ∈ l.destutter' (fun a b => key a ≠ key b) x, key b = key a ∧ R b a := by
    intro l
    induction l with
    | nil =>
      intro x a _ ha
      rw [List.mem_singleton.1 ha]
      exact ⟨x, by simp, rfl, hR x⟩
    | cons y l ih =>
      intro x a hl ha
      obtain ⟨hx, hyl⟩ := List.pairwise_cons.1 hl
      by_cases hxy : key x = key y
      · -- `y` is dropped, and `x` stands for it
        rw [List.destutter'_cons_neg _ (by simpa using hxy)]
        have hxl : (x :: l).Pairwise R :=
          List.pairwise_cons.2 ⟨fun b hb => hx b (List.mem_cons_of_mem _ hb), hyl.of_cons⟩
        rcases List.mem_cons.1 ha with rfl | ha
        · exact ih a a hxl (by simp)
        rcases List.mem_cons.1 ha with rfl | ha
        · exact ⟨x, List.mem_destutter' _ _ _, hxy, hx a (by simp)⟩
        · exact ih x a hxl (List.mem_cons_of_mem _ ha)
      · rw [List.destutter'_cons_pos _ (by simpa using hxy)]
        rcases List.mem_cons.1 ha with rfl | ha
        · exact ⟨a, by simp, rfl, hR a⟩
        · obtain ⟨b, hb, hk⟩ := ih y a hyl ha
          exact ⟨b, List.mem_cons_of_mem _ hb, hk⟩
  cases l with
  | nil => cases h
  | cons x l => exact aux l x a hl h

theorem exists_mem_dedupRuns {l : List α} {a : α} (h : a ∈ l) :
    ∃ b ∈ dedupRuns key l, key b = key a := by
  obtain ⟨b, hb, hk, -⟩ := exists_before_mem_dedupRuns key (R := fun _ _ => True)
    (fun _ => trivial) (List.pairwise_of_forall fun _ _ => trivial) h
  exact ⟨b, hb, hk⟩

theorem sorted_sortDedup (l : List α) : Sorted key (sortDedup key l) :=
  sorted_dedupRuns key (pairwise_insertionSort_key key l)

theorem mem_of_mem_sortDedup {l : List α} {a : α} (h : a ∈ sortDedup key l) : a ∈ l :=
  (List.mem_insertionSort _).1 ((List.destutter_sublist _ _).mem h)

/-- Every key of the input keeps a record. -/
theorem exists_mem_sortDedup {l : List α} {a : α} (h : a ∈ l) :
    ∃ b ∈ sortDedup key l, key b = key a :=
  exists_mem_dedupRuns key ((List.mem_insertionSort _).2 h)

/-- A sort by key that promises nothing about the order of records with the same key. -/
structure UnstableSort where
  sort : List α → List α
  perm : ∀ l, (sort l).Perm l
  pairwise : ∀ l, (sort l).Pairwise fun a b => key a ≤ key b

/-- A stable sort is one of them. -/
def UnstableSort.stable : UnstableSort key where
  sort l := l.insertionSort fun a b => key a ≤ key b
  perm l := List.perm_insertionSort _ l
  pairwise l := pairwise_insertionSort_key key l

/-! ### Merging -/

/-- One record of the merge and what is left of the two tables: the smaller head, or the new one
where the keys agree, which drops the old one. -/
def mergeNext : List α → List α → Option (α × List α × List α)
  | [], [] => none
  | [], n :: ns => some (n, [], ns)
  | o :: os, [] => some (o, os, [])
  | o :: os, n :: ns =>
    if key n ≤ key o then
      if key n = key o then some (n, os, ns) else some (n, o :: os, ns)
    else some (o, os, n :: ns)

/-- The merge drained through at most `k` records. -/
def drain : ℕ → List α → List α → List α
  | 0, _, _ => []
  | k + 1, old, new =>
    match mergeNext key old new with
    | none => []
    | some (x, old, new) => x :: drain k old new

/-- The merge of two tables, the second one winning on a common key. -/
def mergeNew (old new : List α) : List α :=
  drain key (old.length + new.length) old new

/-- What a drained merge holds: all of `new`, and the part of `old` with keys not in `new`. -/
theorem mem_drain {k : ℕ} : ∀ {old new : List α}, old.length + new.length ≤ k →
    Sorted key old → Sorted key new → ∀ {x : α},
      x ∈ drain key k old new ↔ x ∈ new ∨ (x ∈ old ∧ ∀ y ∈ new, key y ≠ key x) := by
  induction k with
  | zero =>
    intro old new hk _ _ x
    have ho : old = [] := List.length_eq_zero_iff.1 (by omega)
    have hn : new = [] := List.length_eq_zero_iff.1 (by omega)
    simp [drain, ho, hn]
  | succ k ih =>
    intro old new hk hold hnew x
    match old, new with
    | [], [] => simp [drain, mergeNext]
    | [], n :: ns =>
      have := @ih [] ns (by simp at hk ⊢; omega) hold hnew.of_cons x
      simp [drain, mergeNext, this]
    | o :: os, [] =>
      have := @ih os [] (by simp at hk ⊢; omega) hold.of_cons hnew x
      simp [drain, mergeNext, this]
    | o :: os, n :: ns =>
      obtain ⟨ho, hos⟩ := List.pairwise_cons.1 hold
      obtain ⟨hn, hns⟩ := List.pairwise_cons.1 hnew
      simp only [List.length_cons] at hk
      simp only [drain, mergeNext]
      split_ifs with hle heq
      · -- equal keys: the old head disappears
        have := @ih os ns (by omega) hos hns x
        simp only [List.mem_cons, this, forall_eq_or_imp]
        constructor
        · rintro (rfl | h | ⟨h, hd⟩)
          · exact .inl (.inl rfl)
          · exact .inl (.inr h)
          · exact .inr ⟨.inr h, heq ▸ (ho x h).ne, hd⟩
        · rintro ((rfl | h) | ⟨rfl | h, hd, hd'⟩)
          · exact .inl rfl
          · exact .inr (.inl h)
          · exact absurd heq hd
          · exact .inr (.inr ⟨h, hd'⟩)
      · -- the new head is smaller than every old key
        have hlt : key n < key o := lt_of_le_of_ne hle heq
        have := @ih (o :: os) ns (by simp; omega) hold hns x
        simp only [List.mem_cons, this, forall_eq_or_imp]
        have hne : x = o ∨ x ∈ os → key n ≠ key x := by
          rintro (rfl | h)
          · exact hlt.ne
          · exact (hlt.trans (ho x h)).ne
        constructor
        · rintro (rfl | h | ⟨h, hd⟩)
          · exact .inl (.inl rfl)
          · exact .inl (.inr h)
          · exact .inr ⟨h, hne h, hd⟩
        · rintro ((rfl | h) | ⟨h, -, hd⟩)
          · exact .inl rfl
          · exact .inr (.inl h)
          · exact .inr (.inr ⟨h, hd⟩)
      · -- the old head is smaller than every new key
        have hlt : key o < key n := not_le.1 hle
        have := @ih os (n :: ns) (by simp; omega) hos hnew x
        simp only [List.mem_cons, this, forall_eq_or_imp]
        have hne : x = o → key n ≠ key x ∧ ∀ y ∈ ns, key y ≠ key x := by
          rintro rfl
          exact ⟨hlt.ne', fun y hy => (hlt.trans (hn y hy)).ne'⟩
        constructor
        · rintro (h | h | ⟨h, hd⟩)
          · exact .inr ⟨.inl h, hne h⟩
          · exact .inl h
          · exact .inr ⟨.inr h, hd⟩
        · rintro (h | ⟨h | h, hd⟩)
          · exact .inr (.inl h)
          · exact .inl h
          · exact .inr (.inr ⟨h, hd⟩)

theorem sorted_drain {k : ℕ} : ∀ {old new : List α}, old.length + new.length ≤ k →
    Sorted key old → Sorted key new → Sorted key (drain key k old new) := by
  induction k with
  | zero => intros; exact .nil
  | succ k ih =>
    intro old new hk hold hnew
    match old, new with
    | [], [] => simp [drain, mergeNext, Sorted]
    | [], n :: ns =>
      have hk' : ([] : List α).length + ns.length ≤ k := by simp at hk ⊢; omega
      refine List.pairwise_cons.2 ⟨fun x hx => ?_, ih hk' hold hnew.of_cons⟩
      rcases (mem_drain key hk' hold hnew.of_cons).1 hx with h | ⟨h, -⟩
      · exact List.rel_of_pairwise_cons hnew h
      · cases h
    | o :: os, [] =>
      have hk' : os.length + ([] : List α).length ≤ k := by simp at hk ⊢; omega
      refine List.pairwise_cons.2 ⟨fun x hx => ?_, ih hk' hold.of_cons hnew⟩
      rcases (mem_drain key hk' hold.of_cons hnew).1 hx with h | ⟨h, -⟩
      · cases h
      · exact List.rel_of_pairwise_cons hold h
    | o :: os, n :: ns =>
      obtain ⟨ho, hos⟩ := List.pairwise_cons.1 hold
      obtain ⟨hn, hns⟩ := List.pairwise_cons.1 hnew
      simp only [List.length_cons] at hk
      simp only [drain, mergeNext]
      -- one holder in both streams, the new record first, the old one first
      split_ifs with hle heq
      · refine List.pairwise_cons.2 ⟨fun x hx => ?_, ih (by omega) hos hns⟩
        rcases (mem_drain key (by omega) hos hns).1 hx with h | ⟨h, -⟩
        · exact hn x h
        · exact heq ▸ ho x h
      · have hlt : key n < key o := lt_of_le_of_ne hle heq
        refine List.pairwise_cons.2 ⟨fun x hx => ?_, ih (by simp; omega) hold hns⟩
        rcases (mem_drain key (by simp; omega) hold hns).1 hx with h | ⟨h, -⟩
        · exact hn x h
        · rcases List.mem_cons.1 h with rfl | h
          · exact hlt
          · exact hlt.trans (ho x h)
      · have hlt : key o < key n := not_le.1 hle
        refine List.pairwise_cons.2 ⟨fun x hx => ?_, ih (by simp; omega) hos hnew⟩
        rcases (mem_drain key (by simp; omega) hos hnew).1 hx with h | ⟨h, -⟩
        · rcases List.mem_cons.1 h with rfl | h
          · exact hlt
          · exact hlt.trans (hn x h)
        · exact ho x h

theorem mem_mergeNew {old new : List α} (hold : Sorted key old) (hnew : Sorted key new) {x : α} :
    x ∈ mergeNew key old new ↔ x ∈ new ∨ (x ∈ old ∧ ∀ y ∈ new, key y ≠ key x) :=
  mem_drain key le_rfl hold hnew

theorem sorted_mergeNew {old new : List α} (hold : Sorted key old) (hnew : Sorted key new) :
    Sorted key (mergeNew key old new) :=
  sorted_drain key le_rfl hold hnew

/-- Every key of either table is in the merge. -/
theorem exists_mem_mergeNew {old new : List α} (hold : Sorted key old) (hnew : Sorted key new)
    {x : α} (h : x ∈ old ∨ x ∈ new) : ∃ y ∈ mergeNew key old new, key y = key x := by
  rcases h with h | h
  · by_cases hd : ∀ y ∈ new, key y ≠ key x
    · exact ⟨x, (mem_mergeNew key hold hnew).2 (.inr ⟨h, hd⟩), rfl⟩
    · push Not at hd
      obtain ⟨y, hy, hk⟩ := hd
      exact ⟨y, (mem_mergeNew key hold hnew).2 (.inl hy), hk⟩
  · exact ⟨x, (mem_mergeNew key hold hnew).2 (.inl h), rfl⟩

/-! ### Binary search -/

/-- Binary search for `k` between the positions `lo` and `hi`, in at most `n` steps. -/
def searchLoop (l : List α) (k : κ) : ℕ → ℕ → ℕ → Option α
  | 0, _, _ => none
  | n + 1, lo, hi =>
    if lo < hi then
      let mid := lo + (hi - lo) / 2
      match l[mid]? with
      | none => none
      | some r =>
        if key r < k then searchLoop l k n (mid + 1) hi
        else if k < key r then searchLoop l k n lo mid
        else some r
    else none

/-- Binary search on the whole table. -/
def search (l : List α) (k : κ) : Option α :=
  searchLoop key l k (l.length + 1) 0 l.length

theorem searchLoop_sound {l : List α} {k : κ} {a : α} : ∀ {n lo hi : ℕ},
    searchLoop key l k n lo hi = some a → a ∈ l ∧ key a = k
  | 0, _, _, h => by cases h
  | n + 1, lo, hi, h => by
    rw [searchLoop] at h
    split_ifs at h
    cases hr : l[lo + (hi - lo) / 2]? with
    | none => simp [hr] at h
    | some r =>
      simp only [hr] at h
      split_ifs at h with h1 h2
      · exact searchLoop_sound h
      · exact searchLoop_sound h
      · cases h
        exact ⟨List.mem_of_getElem? hr, le_antisymm (not_lt.1 h2) (not_lt.1 h1)⟩

theorem Sorted.getElem_lt {l : List α} (h : Sorted key l) {i j : ℕ} (hij : i < j)
    (hj : j < l.length) : key (l.get ⟨i, hij.trans hj⟩) < key l[j] :=
  List.pairwise_iff_getElem.1 h i j (hij.trans hj) hj hij

/-- A record between the two positions is found. -/
theorem searchLoop_complete {l : List α} (hl : Sorted key l) {i : ℕ} (hi : i < l.length) :
    ∀ {n lo hi' : ℕ}, lo ≤ i → i < hi' → hi' ≤ l.length → hi' - lo < n →
      searchLoop key l (key l[i]) n lo hi' = some l[i]
  | 0, lo, hi', _, _, _, hn => by omega
  | n + 1, lo, hi', hlo, hhi, hlen, hn => by
    have hlt : lo < hi' := by omega
    have hmid : lo + (hi' - lo) / 2 < l.length := by omega
    rw [searchLoop, if_pos hlt]
    simp only [List.getElem?_eq_getElem hmid]
    split_ifs with h1 h2
    · refine searchLoop_complete hl hi ?_ hhi hlen (by omega)
      by_contra hle
      rcases Nat.lt_or_ge i (lo + (hi' - lo) / 2) with h | h
      · exact absurd (hl.getElem_lt key h hmid) (not_lt.2 h1.le)
      · have : i = lo + (hi' - lo) / 2 := by omega
        subst this
        exact lt_irrefl _ h1
    · refine searchLoop_complete hl hi hlo ?_ (by omega) (by omega)
      by_contra hle
      rcases Nat.lt_or_ge (lo + (hi' - lo) / 2) i with h | h
      · exact absurd (hl.getElem_lt key h hi) (not_lt.2 h2.le)
      · have : i = lo + (hi' - lo) / 2 := by omega
        subst this
        exact lt_irrefl _ h2
    · congr 1
      exact hl.eq_of_key_eq key (List.getElem_mem _) (List.getElem_mem _)
        (le_antisymm (not_lt.1 h2) (not_lt.1 h1))

/-- **Binary search is lookup.** On a sorted table it finds a record exactly when it is there. -/
theorem search_eq_some_iff {l : List α} (hl : Sorted key l) {k : κ} {a : α} :
    search key l k = some a ↔ a ∈ l ∧ key a = k := by
  refine ⟨searchLoop_sound key, ?_⟩
  rintro ⟨ha, rfl⟩
  obtain ⟨i, hi, rfl⟩ := List.mem_iff_getElem.1 ha
  exact searchLoop_complete key hl hi (Nat.zero_le _) hi le_rfl (by omega)

end SortedTable
