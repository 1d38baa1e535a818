import Kist.Lib.SortedTable

/-!
# Sorted tables that are read as streams

The records of a sorted table come one by one, and a read may fail. The first record of each key
survives a sort with removal of repeated keys (`find?_sortDedup`); a merge with a stream passes the
first failure of the stream on, wherever it stands (`collect_mergeStream_error`), and is the merge
of tables where there is none (`mergeStream_ok`).
-/

namespace SortedTable

variable {α κ ε : Type*} [LinearOrder κ] (key : α → κ)

/-! ### The first record of a key -/

/-- A stable sort leaves the records of one key in their order. -/
theorem filter_insertionSort (l : List α) (k : κ) :
    (l.insertionSort fun a b => key a ≤ key b).filter (fun r => key r = k) =
      l.filter fun r => key r = k := by
  have : IsTrans α fun a b => key a ≤ key b := ⟨fun _ _ _ => le_trans⟩
  have : Std.Total fun a b : α => key a ≤ key b := ⟨fun _ _ => le_total _ _⟩
  have hsub : (l.filter fun r => key r = k).Sublist
      (l.insertionSort fun a b => key a ≤ key b) := by
    refine List.sublist_insertionSort (List.pairwise_of_forall_mem_list fun a ha b hb => ?_)
      List.filter_sublist
    have hka := of_decide_eq_true (List.mem_filter.1 ha).2
    have hkb := of_decide_eq_true (List.mem_filter.1 hb).2
    exact le_of_eq (hka.trans hkb.symm)
  have hfilter := hsub.filter fun r => key r = k
  rw [List.filter_filter] at hfilter
  simp only [Bool.and_self] at hfilter
  refine (hfilter.eq_of_length ?_).symm
  exact ((List.perm_insertionSort _ l).filter _).length_eq.symm

theorem find?_dedupRuns (l : List α) (k : κ) :
    (dedupRuns key l).find? (fun r => key r = k) = l.find? fun r => key r = k := by
  have aux : ∀ (l : List α) (x : α),
      (l.destutter' (fun a b => key a ≠ key b) x).find? (fun r => key r = k) =
        (x :: l).find? fun r => key r = k := by
    intro l
    induction l with
    | nil => intro x; rfl
    | cons y l ih =>
      intro x
      by_cases hxy : key x = key y
      · -- `y` is dropped, and `x` stands before it
        rw [List.destutter'_cons_neg _ (by simpa using hxy), ih]
        by_cases hk : key x = k
        · rw [List.find?_cons_of_pos (by simpa using hk),
            List.find?_cons_of_pos (by simpa using hk)]
        · have hky : ¬key y = k := hxy ▸ hk
          rw [List.find?_cons_of_neg (by simpa using hk),
            List.find?_cons_of_neg (by simpa using hk), List.find?_cons_of_neg (by simpa using hky)]
      · rw [List.destutter'_cons_pos _ (by simpa using hxy), List.find?_cons, ih]
        conv_rhs => rw [List.find?_cons]
  cases l with
  | nil => rfl
  | cons x l => exact aux l x

/-- **The first record of a key is kept.** -/
theorem find?_sortDedup (l : List α) (k : κ) :
    (sortDedup key l).find? (fun r => key r = k) = l.find? fun r => key r = k := by
  rw [sortDedup, find?_dedupRuns, ← List.head?_filter, filter_insertionSort, List.head?_filter]

/-- Binary search finds what a search from the front finds. -/
theorem search_eq_find? {l : List α} (hl : Sorted key l) (k : κ) :
    search key l k = l.find? fun r => key r = k := by
  cases hfind : l.find? fun r => key r = k with
  | none =>
    rw [List.find?_eq_none] at hfind
    rw [Option.eq_none_iff_forall_not_mem]
    intro a ha
    obtain ⟨hmem, hkey⟩ := (search_eq_some_iff key hl).1 ha
    exact hfind a hmem (decide_eq_true hkey)
  | some a =>
    have hkey := List.find?_some hfind
    exact (search_eq_some_iff key hl).2 ⟨List.mem_of_find?_eq_some hfind, of_decide_eq_true hkey⟩

/-! ### Streams -/

/-- The records of a stream up to its end, or its first failure. -/
def collect : List (Except ε α) → Except ε (List α)
  | [] => .ok []
  | .error e :: _ => .error e
  | .ok r :: stream => (collect stream).map fun rs => r :: rs

/-- The merge of a stream with a table, the table winning on a common key. A failure of the stream
is passed on as soon as it stands at the front. -/
def mergeStream : List (Except ε α) → List α → List (Except ε α)
  | .error e :: old, new => .error e :: mergeStream old new
  | [], [] => []
  | [], n :: new => .ok n :: mergeStream [] new
  | .ok o :: old, [] => .ok o :: mergeStream old []
  | .ok o :: old, n :: new =>
    if key n ≤ key o then
      if key n = key o then .ok n :: mergeStream old new
      else .ok n :: mergeStream (.ok o :: old) new
    else .ok o :: mergeStream old (n :: new)
termination_by old new => old.length + new.length

theorem collect_ok (l : List α) : collect (l.map (Except.ok (ε := ε))) = .ok l := by
  induction l with
  | nil => rfl
  | cons x l ih =>
    rw [List.map_cons, collect, ih]
    rfl

/-- **No failure.** The merge with a stream that yields all its records is the merge of tables. -/
theorem mergeStream_ok (old new : List α) :
    mergeStream key (old.map (Except.ok (ε := ε))) new = (mergeNew key old new).map Except.ok := by
  have hdrain : ∀ k, ∀ old new : List α, old.length + new.length ≤ k →
      mergeStream key (old.map (Except.ok (ε := ε))) new = (drain key k old new).map Except.ok := by
    intro k
    induction k with
    | zero =>
      intro old new hk
      obtain rfl : old = [] := List.length_eq_zero_iff.1 (by omega)
      obtain rfl : new = [] := List.length_eq_zero_iff.1 (by omega)
      simp [mergeStream, drain]
    | succ k ih =>
      intro old new hk
      cases old with
      | nil =>
        cases new with
        | nil => simp [mergeStream, drain, mergeNext]
        | cons n new =>
          have hrest := ih [] new (by simp at hk ⊢; omega)
          simp only [List.map_nil] at hrest
          simp [mergeStream, drain, mergeNext, hrest]
      | cons o old =>
        cases new with
        | nil =>
          have hrest := ih old [] (by simp at hk ⊢; omega)
          simp [mergeStream, drain, mergeNext, hrest]
        | cons n new =>
          simp only [List.length_cons] at hk
          simp only [List.map_cons, mergeStream, drain, mergeNext]
          split_ifs
          · rw [ih old new (by omega), List.map_cons]
          · have hrest := ih (o :: old) new (by simp; omega)
            rw [List.map_cons] at hrest
            rw [hrest, List.map_cons]
          · rw [ih old (n :: new) (by simp; omega), List.map_cons]
  exact hdrain _ old new le_rfl

/-- **A failure.** It is what the merge with the stream ends in, wherever it stands. -/
theorem collect_mergeStream_error (front : List α) (e : ε) (rest : List (Except ε α))
    (new : List α) :
    collect (mergeStream key (front.map Except.ok ++ .error e :: rest) new) = .error e := by
  have hmeasure : ∀ k, ∀ front new : List α, front.length + new.length ≤ k →
      collect (mergeStream key (front.map Except.ok ++ .error e :: rest) new) = .error e := by
    intro k
    induction k with
    | zero =>
      intro front new hk
      obtain rfl : front = [] := List.length_eq_zero_iff.1 (by omega)
      simp [mergeStream, collect]
    | succ k ih =>
      intro front new hk
      match front, new with
      | [], new => simp [mergeStream, collect]
      | o :: front, [] =>
        have hrest := ih front [] (by simp at hk ⊢; omega)
        rw [List.map_cons, List.cons_append, mergeStream, collect, hrest]
        rfl
      | o :: front, n :: new =>
        simp only [List.length_cons] at hk
        rw [List.map_cons, List.cons_append, mergeStream]
        split_ifs
        · rw [collect, ih front new (by omega)]
          rfl
        · have hrest := ih (o :: front) new (by simp; omega)
          rw [List.map_cons, List.cons_append] at hrest
          rw [collect, hrest]
          rfl
        · rw [collect, ih front (n :: new) (by simp; omega)]
          rfl
  exact hmeasure _ front new le_rfl

end SortedTable
