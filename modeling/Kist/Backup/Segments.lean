import Kist.Backup.Hears
import Kist.Reach

/-!
# Directories in segments

A directory is written as a chain of trees, each with the name of the one before it, and read back
from its last one: all at once by `read_tree_chain`, or with one segment at a time in memory by
`ParentStream`.

* `Repository.readTreeChain_ok_iff`, `openParent_ok_iff`: both walk the same chain, and end with an
  error where it has no end.
* `takeNames_openParent`: names asked for in increasing order are looked up in the whole directory.
* `segments_round_trip`: what the walk of a directory writes is read back.
-/

namespace Kist

open Checked (bind_eq_ok)

namespace Repository

variable {repo : Repository} {id : TreeId} {t : Tree} {start : Option TreeId}
  {l l' : List (TreeId × Tree)} {seen : List TreeId} {n : ℕ} {R : TreeId → Tree → Prop}

/-! ### Chains -/

/-- The trees of a chain, from the last one to the first one. -/
inductive Trail (repo : Repository) : Option TreeId → List (TreeId × Tree) → Prop
  | nil : Trail repo none []
  | cons {id : TreeId} {t : Tree} {l : List (TreeId × Tree)} (h : repo.HasTree id t)
    (hrest : Trail repo t.prev l) : Trail repo (some id) ((id, t) :: l)

/-- The entries of the directory. -/
def trailEntries (l : List (TreeId × Tree)) : List Entry := l.reverse.flatMap fun x => x.2.entries

theorem Trail.unique (h : Trail repo start l) (h' : Trail repo start l') : l = l' := by
  induction h generalizing l' with
  | nil => cases h'; rfl
  | cons ht _ ih =>
    cases h' with
    | cons ht' hrest' =>
      obtain rfl := ht.unique ht'
      rw [ih hrest']

/-- What is left of a chain after some trees is a chain. -/
theorem Trail.suffix {l₁ l₂ : List (TreeId × Tree)} (h : Trail repo start (l₁ ++ (id, t) :: l₂)) :
    Trail repo (some id) ((id, t) :: l₂) := by
  induction l₁ generalizing start with
  | nil => cases h with | cons ht hrest => exact .cons ht hrest
  | cons x l₁ ih => cases h with | cons _ hrest => exact ih hrest

theorem Trail.hasTree (h : Trail repo start l) : ∀ x ∈ l, repo.HasTree x.1 x.2 := by
  induction h with
  | nil => exact nofun
  | cons ht _ ih =>
    intro x hx
    rcases List.mem_cons.1 hx with rfl | hx
    · exact ht
    · exact ih x hx

/-- A chain that ends does not come back to a tree. -/
theorem Trail.nodup (h : Trail repo start l) : (l.map Prod.fst).Nodup := by
  induction h with
  | nil => exact List.nodup_nil
  | @cons id t l ht hrest ih =>
    rw [List.map_cons, List.nodup_cons]
    refine ⟨fun hmem => ?_, ih⟩
    obtain ⟨⟨id', t'⟩, hx, rfl⟩ := List.mem_map.1 hmem
    obtain ⟨l₁, l₂, rfl⟩ := List.append_of_mem hx
    have heq := (Trail.cons ht hrest).unique hrest.suffix
    have hlen := congrArg List.length heq
    simp only [List.length_cons, List.length_append] at hlen
    omega

/-- Only a stored tree can be read. -/
theorem mem_stored_of_readTree (h : repo.readTree id = .ok t) :
    id ∈ repo.store.trees.keys ++ repo.store.treeReplicas.keys := by
  simpa [storedTrees] using mem_storedTrees (show repo.HasTree id t from h)

theorem stored_length : (repo.store.trees.keys ++ repo.store.treeReplicas.keys).length =
    repo.store.trees.entries.length + repo.store.treeReplicas.entries.length := by
  simp [AList.keys, List.keys]

/-- The number of trees of a chain is at most the number of those that are stored. -/
theorem Trail.length_le (h : Trail repo start l) :
    l.length ≤ repo.store.trees.entries.length + repo.store.treeReplicas.entries.length := by
  have hsub : ∀ id ∈ l.map Prod.fst,
      id ∈ repo.store.trees.keys ++ repo.store.treeReplicas.keys := by
    intro id hid
    obtain ⟨x, hx, rfl⟩ := List.mem_map.1 hid
    exact mem_stored_of_readTree (h.hasTree x hx)
  have hle := (List.subperm_of_subset h.nodup hsub).length_le
  rwa [List.length_map, stored_length] at hle

/-- The bound of `read_tree_chain` is never reached: each round reads another stored tree. -/
theorem readChain_succ (hnodup : seen.Nodup)
    (hsub : seen ⊆ repo.store.trees.keys ++ repo.store.treeReplicas.keys)
    (hn : (repo.store.trees.keys ++ repo.store.treeReplicas.keys).length < n + seen.length) :
    repo.readChain (n + 1) seen id = repo.readChain n seen id := by
  induction n generalizing seen id with
  | zero =>
    have hle := (List.subperm_of_subset hnodup hsub).length_le
    omega
  | succ n ih =>
    rw [readChain, readChain]
    split_ifs with hmem
    · rfl
    · cases htree : repo.readTree id with
      | error e => rfl
      | ok t =>
        simp only [bind, Except.bind]
        cases t.prev with
        | none => rfl
        | some prev =>
          have hstep :
              repo.readChain (n + 1) (id :: seen) prev = repo.readChain n (id :: seen) prev :=
            ih (List.nodup_cons.2 ⟨hmem, hnodup⟩)
              (List.cons_subset.2 ⟨mem_stored_of_readTree htree, hsub⟩) (by
                rw [List.length_cons]
                omega)
          simp only [hstep]

/-- The bound of `ParentStream::open` is never reached either. -/
theorem chainIds_succ (hnodup : seen.Nodup)
    (hsub : seen ⊆ repo.store.trees.keys ++ repo.store.treeReplicas.keys)
    (hn : (repo.store.trees.keys ++ repo.store.treeReplicas.keys).length < n + seen.length) :
    repo.chainIds (n + 1) seen start = repo.chainIds n seen start := by
  induction n generalizing seen start with
  | zero =>
    have hle := (List.subperm_of_subset hnodup hsub).length_le
    omega
  | succ n ih =>
    cases start with
    | none => rfl
    | some id =>
      rw [chainIds, chainIds]
      split_ifs with hmem
      · rfl
      · cases htree : repo.readTree id with
        | error e => rfl
        | ok t =>
          simp only [bind, Except.bind]
          exact ih (List.nodup_cons.2 ⟨hmem, hnodup⟩)
            (List.cons_subset.2 ⟨mem_stored_of_readTree htree, hsub⟩) (by
              rw [List.length_cons]
              omega)

/-- Without a bound `read_tree_chain` reads the same. -/
theorem readTreeChain_unbounded (last : TreeId) (k : ℕ) :
    repo.readChain
      (repo.store.trees.entries.length + repo.store.treeReplicas.entries.length + 1 + k) [] last =
        repo.readTreeChain last := by
  induction k with
  | zero => rfl
  | succ k ih =>
    rw [← ih, ← Nat.add_assoc]
    exact readChain_succ List.nodup_nil (List.nil_subset _) (by
      rw [stored_length, List.length_nil]
      omega)

/-- Without a bound `ParentStream::open` finds the same. -/
theorem chainIds_unbounded (last : TreeId) (k : ℕ) :
    repo.chainIds
      (repo.store.trees.entries.length + repo.store.treeReplicas.entries.length + 1 + k) []
        (some last) =
      repo.chainIds
        (repo.store.trees.entries.length + repo.store.treeReplicas.entries.length + 1) []
          (some last) := by
  induction k with
  | zero => rfl
  | succ k ih =>
    rw [← ih, ← Nat.add_assoc]
    exact chainIds_succ List.nodup_nil (List.nil_subset _) (by
      rw [stored_length, List.length_nil]
      omega)

theorem trailEntries_cons (x : TreeId × Tree) (l : List (TreeId × Tree)) :
    trailEntries (x :: l) = trailEntries l ++ x.2.entries := by
  simp [trailEntries]

theorem Trail.not_mem_cons (h : Trail repo start ((id, t) :: l))
    (hseen : ∀ x ∈ (id, t) :: l, x.1 ∉ seen) : ∀ x ∈ l, x.1 ∉ id :: seen := by
  intro x hx
  have hnodup := h.nodup
  rw [List.map_cons, List.nodup_cons] at hnodup
  rw [List.mem_cons, not_or]
  exact ⟨fun heq => hnodup.1 (List.mem_map.2 ⟨x, hx, heq⟩), hseen x (List.mem_cons_of_mem _ hx)⟩

/-- `ParentStream::open` finds the names of the chain. -/
theorem chainIds_of_trail (h : Trail repo start l) (hn : l.length ≤ n)
    (hseen : ∀ x ∈ l, x.1 ∉ seen) :
    repo.chainIds n seen start = .ok ((l.map Prod.fst).reverse ++ seen) := by
  induction h generalizing n seen with
  | nil => cases n <;> rfl
  | @cons id t l ht hrest ih =>
    obtain ⟨n, rfl⟩ : ∃ m, n = m + 1 := ⟨n - 1, by simp at hn; omega⟩
    rw [chainIds, if_neg (hseen _ List.mem_cons_self), ht]
    exact (ih (by simpa using hn) ((Trail.cons ht hrest).not_mem_cons hseen)).trans (by simp)

/-- `read_tree_chain` finds the entries of the chain. -/
theorem readChain_of_trail (h : Trail repo (some id) l) (hn : l.length ≤ n)
    (hseen : ∀ x ∈ l, x.1 ∉ seen) : repo.readChain n seen id = .ok (trailEntries l) := by
  generalize hstart : some id = start at h
  induction h generalizing n seen id with
  | nil => cases hstart
  | @cons id' t l ht hrest ih =>
    cases hstart
    obtain ⟨n, rfl⟩ : ∃ m, n = m + 1 := ⟨n - 1, by simp at hn; omega⟩
    have htree : repo.readTree id' = .ok t := ht
    rw [readChain, if_neg (hseen _ List.mem_cons_self), htree, trailEntries_cons]
    simp only [bind, Except.bind]
    cases hprev : t.prev with
    | none =>
      rw [hprev] at hrest
      cases hrest
      rfl
    | some prev =>
      have hread : repo.readChain n (id' :: seen) prev = .ok (trailEntries l) :=
        ih (by simpa using hn) ((Trail.cons ht hrest).not_mem_cons hseen) hprev.symm
      simp only [hread]
      rfl

theorem trail_of_chainIds {parts : List TreeId} (h : repo.chainIds n seen start = .ok parts) :
    ∃ l, Trail repo start l ∧ parts = (l.map Prod.fst).reverse ++ seen := by
  induction n generalizing seen start with
  | zero =>
    cases start with
    | none => cases h; exact ⟨[], .nil, rfl⟩
    | some id => cases h
  | succ n ih =>
    cases start with
    | none => cases h; exact ⟨[], .nil, rfl⟩
    | some id =>
      unfold chainIds at h
      split_ifs at h
      obtain ⟨t, ht, h⟩ := bind_eq_ok.1 h
      obtain ⟨l, hl, rfl⟩ := ih h
      exact ⟨(id, t) :: l, .cons ht hl, by simp⟩

theorem trail_of_readChain {es : List Entry} (h : repo.readChain n seen id = .ok es) :
    ∃ l, Trail repo (some id) l ∧ es = trailEntries l := by
  induction n generalizing seen id es with
  | zero => cases h
  | succ n ih =>
    unfold readChain at h
    split_ifs at h
    obtain ⟨t, ht, h⟩ := bind_eq_ok.1 h
    cases hprev : t.prev with
    | none =>
      rw [hprev] at h
      cases h
      exact ⟨[(id, t)], .cons ht (hprev ▸ .nil), by simp [trailEntries]⟩
    | some prev =>
      rw [hprev] at h
      obtain ⟨before, hbefore, h⟩ := bind_eq_ok.1 h
      cases h
      obtain ⟨l, hl, rfl⟩ := ih hbefore
      exact ⟨(id, t) :: l, .cons ht (hprev ▸ hl), by rw [trailEntries_cons]⟩

theorem readTreeChain_ok_iff {last : TreeId} {es : List Entry} :
    repo.readTreeChain last = .ok es ↔ ∃ l, Trail repo (some last) l ∧ es = trailEntries l := by
  constructor
  · exact trail_of_readChain
  · rintro ⟨l, hl, rfl⟩
    exact readChain_of_trail hl (hl.length_le.trans (Nat.le_succ _)) fun _ _ => List.not_mem_nil

theorem openParent_ok_iff {last : TreeId} {s : ParentStream} :
    repo.openParent last = .ok s ↔
      ∃ l, Trail repo (some last) l ∧ s = ⟨(l.map Prod.fst).reverse, []⟩ := by
  constructor
  · intro h
    obtain ⟨parts, hparts, h⟩ := bind_eq_ok.1 h
    cases h
    obtain ⟨l, hl, rfl⟩ := trail_of_chainIds hparts
    exact ⟨l, hl, by simp⟩
  · rintro ⟨l, hl, rfl⟩
    refine bind_eq_ok.2 ⟨_, chainIds_of_trail hl (hl.length_le.trans (Nat.le_succ _))
      fun _ _ => List.not_mem_nil, ?_⟩
    simp
    rfl

/-! ### Chains that come back -/

/-- The tree has another one before it. -/
def Precedes (repo : Repository) (id prev : TreeId) : Prop :=
  ∃ t, repo.HasTree id t ∧ t.prev = some prev

/-- The chain comes back to a tree. -/
def Loops (repo : Repository) (last : TreeId) : Prop :=
  ∃ id, Relation.ReflTransGen repo.Precedes last id ∧ Relation.TransGen repo.Precedes id id

theorem Loops.next {last : TreeId} (h : repo.Loops last) :
    ∃ t prev, repo.readTree last = .ok t ∧ t.prev = some prev ∧ repo.Loops prev := by
  obtain ⟨id, hreach, hcycle⟩ := h
  rcases Relation.ReflTransGen.cases_head hreach with rfl | ⟨prev, ⟨t, ht, hprev⟩, hrest⟩
  · obtain ⟨prev, ⟨t, ht, hprev⟩, hback⟩ := Relation.TransGen.head'_iff.1 hcycle
    exact ⟨t, prev, ht, hprev, last, hback, hcycle⟩
  · exact ⟨t, prev, ht, hprev, id, hrest, hcycle⟩

theorem readChain_loops {last : TreeId} (h : repo.Loops last) :
    ∃ id, repo.readChain n seen last = .error (.corrupt (.tree id) "tree chain loops") := by
  induction n generalizing seen last with
  | zero => exact ⟨last, rfl⟩
  | succ n ih =>
    obtain ⟨t, prev, ht, hprev, hloops⟩ := h.next
    rw [readChain]
    split_ifs with hseen
    · exact ⟨last, rfl⟩
    · obtain ⟨id, hid⟩ : ∃ id, repo.readChain n (last :: seen) prev =
          .error (.corrupt (.tree id) "tree chain loops") := ih hloops
      refine ⟨id, ?_⟩
      simp only [ht, bind, Except.bind, hprev, hid]

theorem chainIds_loops {last : TreeId} (h : repo.Loops last) :
    ∃ id, repo.chainIds n seen (some last) = .error (.corrupt (.tree id) "tree chain loops") := by
  induction n generalizing seen last with
  | zero => exact ⟨last, rfl⟩
  | succ n ih =>
    obtain ⟨t, prev, ht, hprev, hloops⟩ := h.next
    rw [chainIds]
    split_ifs with hseen
    · exact ⟨last, rfl⟩
    · obtain ⟨id, hid⟩ : ∃ id, repo.chainIds n (last :: seen) (some prev) =
          .error (.corrupt (.tree id) "tree chain loops") := ih hloops
      refine ⟨id, ?_⟩
      simp only [ht, bind, Except.bind, hprev, hid]

theorem openParent_loops {last : TreeId} (h : repo.Loops last) :
    ∃ id, repo.openParent last = .error (.corrupt (.tree id) "tree chain loops") := by
  unfold openParent
  obtain ⟨id, hid⟩ : ∃ id, repo.chainIds
      (repo.store.trees.entries.length + repo.store.treeReplicas.entries.length + 1) []
        (some last) = .error (.corrupt (.tree id) "tree chain loops") := chainIds_loops h
  refine ⟨id, ?_⟩
  dsimp only
  rw [hid]
  rfl

/-! ### Names in increasing order -/

/-- `take_name` for one name after another. In between the repository may change. -/
def takeNames : ParentStream → List (Repository × Bytes) → List (Option Entry)
  | _, [] => []
  | s, q :: qs =>
    (q.1.takeName q.2 s.parts s.current).1 :: takeNames (q.1.takeName q.2 s.parts s.current).2 qs

/-- The stream has these entries left, in the trees that `R` tells of. -/
def Rest (R : TreeId → Tree → Prop) (s : ParentStream) (es : List Entry) : Prop :=
  ∃ l : List (TreeId × Tree), s.parts = l.map Prod.fst ∧ (∀ x ∈ l, R x.1 x.2) ∧
    es = s.current ++ l.flatMap fun x => x.2.entries

section Sorted

variable {es rest : List Entry} {e : Entry} {name : Bytes}

/-- The first entry that is not before a name is the only one that can have it. -/
theorem find?_of_dropWhile_cons (hsorted : es.Pairwise fun a b => a.name < b.name)
    (hdrop : es.dropWhile (fun e => e.name < name) = e :: rest) :
    es.find? (fun e => e.name = name) = (if e.name = name then some e else none) ∧
      es.dropWhile (fun e => e.name ≤ name) = if e.name = name then rest else e :: rest := by
  have hes : es = es.takeWhile (fun e => e.name < name) ++ e :: rest := by
    rw [← hdrop, List.takeWhile_append_dropWhile]
  have hbefore : ∀ x ∈ es.takeWhile (fun e => e.name < name), x.name < name := fun x hx => by
    simpa using List.mem_takeWhile_imp hx
  have hle : name ≤ e.name := by
    have hhead := List.head_dropWhile_not (fun e => decide (e.name < name)) (l := es)
      (by simp [hdrop])
    simp only [hdrop, List.head_cons, decide_eq_false_iff_not] at hhead
    exact not_lt.1 hhead
  have hafter : ∀ x ∈ rest, e.name < x.name := by
    rw [hes] at hsorted
    exact fun x hx => List.rel_of_pairwise_cons (List.pairwise_append.1 hsorted).2.1 hx
  generalize es.takeWhile (fun e => e.name < name) = before at hes hbefore
  subst hes
  have hnone : before.find? (fun e => e.name = name) = none :=
    List.find?_eq_none.2 fun x hx => by simpa using (hbefore x hx).ne
  rw [List.find?_append, hnone, Option.none_or,
    List.dropWhile_append_of_pos fun x hx => by simpa using (hbefore x hx).le]
  split_ifs with hname
  · refine ⟨by simp [hname], ?_⟩
    rw [List.dropWhile_cons_of_pos (by simp [hname])]
    cases rest with
    | nil => rfl
    | cons x rest =>
      have hx := hafter x List.mem_cons_self
      rw [hname] at hx
      exact List.dropWhile_cons_of_neg (by simpa using hx)
  · have hlt : name < e.name := lt_of_le_of_ne hle (Ne.symm hname)
    refine ⟨List.find?_eq_none.2 fun x hx => ?_, List.dropWhile_cons_of_neg (by simpa using hlt)⟩
    rcases List.mem_cons.1 hx with rfl | hx
    · simpa using hname
    · simpa using (hlt.trans (hafter x hx)).ne'

end Sorted

/-- The name is looked up in the current segment. -/
theorem takeName_rest_cons {current rest : List Entry} {e : Entry} {name : Bytes}
    (hdrop : current.dropWhile (fun e => e.name < name) = e :: rest) (hl : ∀ x ∈ l, R x.1 x.2)
    (hsorted : (current ++ l.flatMap fun x => x.2.entries).Pairwise fun a b => a.name < b.name) :
    (repo.takeName name (l.map Prod.fst) current).1 =
        (current ++ l.flatMap fun x => x.2.entries).find? (fun e => e.name = name) ∧
      Rest R (repo.takeName name (l.map Prod.fst) current).2
        ((current ++ l.flatMap fun x => x.2.entries).dropWhile fun e => e.name ≤ name) := by
  have hdrop' : (current ++ l.flatMap fun x => x.2.entries).dropWhile (fun e => e.name < name) =
      e :: (rest ++ l.flatMap fun x => x.2.entries) := by
    rw [List.dropWhile_append, hdrop]
    rfl
  obtain ⟨hfind, hrest⟩ := find?_of_dropWhile_cons hsorted hdrop'
  rw [hfind, hrest]
  unfold takeName
  rw [hdrop]
  dsimp only
  split_ifs
  · exact ⟨rfl, l, rfl, hl, rfl⟩
  · exact ⟨rfl, l, rfl, hl, rfl⟩

/-- One name: it is looked up in the entries that are left, and those after it stay. -/
theorem takeName_rest {s : ParentStream} {es : List Entry} {name : Bytes} (h : Rest R s es)
    (hR : ∀ id t, R id t → repo.HasTree id t) (hsorted : es.Pairwise fun a b => a.name < b.name) :
    (repo.takeName name s.parts s.current).1 = es.find? (fun e => e.name = name) ∧
      Rest R (repo.takeName name s.parts s.current).2 (es.dropWhile fun e => e.name ≤ name) := by
  obtain ⟨l, hparts, hl, rfl⟩ := h
  obtain ⟨parts, current⟩ := s
  dsimp only at hparts hsorted ⊢
  subst hparts
  induction l generalizing current with
  | nil =>
    cases hdrop : current.dropWhile fun e => e.name < name with
    | nil =>
      have hlt : ∀ e ∈ current, e.name < name := by simpa using List.dropWhile_eq_nil_iff.1 hdrop
      unfold takeName
      rw [hdrop, List.flatMap_nil, List.append_nil,
        List.dropWhile_eq_nil_iff.2 fun e he => by simpa using (hlt e he).le]
      refine ⟨(List.find?_eq_none.2 fun e he => ?_).symm, [], rfl, List.forall_mem_nil _, rfl⟩
      simpa using (hlt e he).ne
    | cons e rest => exact takeName_rest_cons hdrop hl hsorted
  | cons x l ih =>
    cases hdrop : current.dropWhile fun e => e.name < name with
    | nil =>
      have hlt : ∀ e ∈ current, e.name < name := by simpa using List.dropWhile_eq_nil_iff.1 hdrop
      have htree : repo.readTree x.1 = .ok x.2 := hR _ _ (hl x List.mem_cons_self)
      have hnone : current.find? (fun e => e.name = name) = none :=
        List.find?_eq_none.2 fun e he => by simpa using (hlt e he).ne
      rw [List.map_cons]
      unfold takeName
      rw [hdrop, List.flatMap_cons, List.find?_append, hnone, Option.none_or,
        List.dropWhile_append_of_pos fun e he => by simpa using (hlt e he).le]
      have hrest := (List.pairwise_append.1 hsorted).2.1
      rw [List.flatMap_cons] at hrest
      simp only [htree]
      exact ih (fun y hy => hl y (List.mem_cons_of_mem _ hy)) x.2.entries hrest
    | cons e rest => exact takeName_rest_cons hdrop hl hsorted

/-- **Names in increasing order** are looked up in the whole directory. -/
theorem takeNames_rest {s : ParentStream} {es : List Entry} {queries : List (Repository × Bytes)}
    (h : Rest R s es) (hsorted : es.Pairwise fun a b => a.name < b.name)
    (hrepo : ∀ q ∈ queries, ∀ id t, R id t → q.1.HasTree id t)
    (hqueries : (queries.map Prod.snd).Pairwise (· < ·)) :
    takeNames s queries = queries.map fun q => es.find? fun e => e.name = q.2 := by
  induction queries generalizing s es with
  | nil => rfl
  | cons q queries ih =>
    obtain ⟨hfirst, hrest⟩ :=
      @takeName_rest q.1 R s es q.2 h (hrepo q List.mem_cons_self) hsorted
    rw [List.map_cons, List.pairwise_cons] at hqueries
    have hlater := ih hrest (hsorted.sublist (List.dropWhile_sublist _))
      (fun q' hq' => hrepo q' (List.mem_cons_of_mem _ hq')) hqueries.2
    rw [List.map_cons, takeNames, hfirst, hlater]
    congr 1
    refine List.map_congr_left fun q' hq' => ?_
    have hlt : q.2 < q'.2 := hqueries.1 _ (List.mem_map_of_mem hq')
    -- what has been passed is before the later name
    have hnone : (es.takeWhile fun e => e.name ≤ q.2).find? (fun e => e.name = q'.2) = none := by
      refine List.find?_eq_none.2 fun e he => ?_
      have hle : e.name ≤ q.2 := by simpa using List.mem_takeWhile_imp he
      simpa using (hle.trans_lt hlt).ne
    conv_rhs =>
      rw [← List.takeWhile_append_dropWhile (p := fun e => decide (e.name ≤ q.2)) (l := es)]
    rw [List.find?_append, hnone, Option.none_or]

theorem trail_of_chain {es : List Entry} (h : Chain repo.HasTree id es) :
    ∃ l, Trail repo (some id) l ∧ es = trailEntries l := by
  induction h with
  | first ht hprev => exact ⟨[(_, _)], .cons ht (hprev ▸ .nil), by simp [trailEntries]⟩
  | next ht hprev _ ih =>
    obtain ⟨l, hl, rfl⟩ := ih
    exact ⟨(_, _) :: l, .cons ht (hprev ▸ hl), by rw [trailEntries_cons]⟩

end Repository

/-! ### What the walk writes -/

namespace Backup

/-- The trees of the repository stay, and those of this run read back. -/
structure Kept (b b' : Backup) : Prop where
  grows : Grows b b'
  seen : SeenOk b'

section Walk

variable {ctx : SourceCtx} {b b' : Backup} {walk : Option Walk} {d : RelPath} {visit : Visit}
  {markers : Option (List Bytes)}

theorem Kept.trans {b'' : Backup} (h : Kept b b') (h' : Kept b' b'') : Kept b b'' :=
  ⟨h.grows.trans h'.grows, h'.seen⟩

theorem Kept.injective (h : Kept b b') (hinj : Function.Injective b.repo.keys.treeId) :
    Function.Injective b'.repo.keys.treeId := by
  rwa [h.grows.keys]

theorem kept_counts (hs : SeenOk b) (stats : SnapshotStats) (report : BackupReport) (tick : ℕ) :
    Kept b { b with stats, report, tick } :=
  ⟨⟨rfl, fun _ _ h => h⟩, hs⟩

theorem kept_writeTree (hinj : Function.Injective b.repo.keys.treeId) (hs : SeenOk b) {t : Tree}
    {r : TreeId × Backup} (h : b.writeTree t = .ok r) : Kept b r.2 ∧ r.2.repo.HasTree r.1 t := by
  obtain ⟨hg, hs', ht⟩ := writeTree_spec hinj hs h
  exact ⟨⟨hg, hs'⟩, ht⟩

/-- What a walk does to a backup. -/
def KeepsTrees (walk : Option Walk) : Prop :=
  ∀ w ∈ walk, ∀ b d parent v r, Function.Injective b.repo.keys.treeId → SeenOk b →
    w b d parent v = .ok r → Kept b r.2

theorem kept_withXattrs (hs : SeenOk b) {rel : RelPath} {e : Entry} :
    Kept b (withXattrs ctx b rel e).2 := by
  unfold withXattrs
  split_ifs
  · exact kept_counts hs _ _ _
  · exact ⟨.refl _, hs⟩

theorem kept_processDir {walk : Walk} (hwalk : KeepsTrees (some walk))
    (hinj : Function.Injective b.repo.keys.treeId) (hs : SeenOk b) {rel : RelPath} {name : Bytes}
    {posix : Option PosixMeta} {parent : Option Entry} {r : Entry × Backup}
    (h : processDir ctx walk b rel name posix parent visit = .ok r) : Kept b r.2 := by
  obtain ⟨⟨subtree, b₁⟩, hsub, h⟩ := bind_eq_ok.1 h
  cases h
  have hb₁ : Kept b b₁ := by
    unfold walkSubtree at hsub
    split at hsub
    · have hcount := kept_counts hs b.stats { b.report with excluded := b.report.excluded + 1 }
        b.tick
      exact hcount.trans (kept_writeTree (hcount.injective hinj) hcount.seen hsub).1
    · exact hwalk walk rfl _ _ _ _ _ hinj hs hsub
  have hcount := kept_counts hb₁.seen { b₁.stats with dirs := b₁.stats.dirs + 1 } b₁.report b₁.tick
  exact hb₁.trans (hcount.trans (kept_withXattrs hcount.seen))

theorem kept_processRegular (hs : SeenOk b) {rel : RelPath} {name : Bytes} {size : ℕ} {mtimeNs : ℤ}
    {etag vern : Option Bytes} {posix : Option PosixMeta} {parent : Option Entry} :
    Kept b (processRegular ctx b rel name size mtimeNs etag vern posix parent).2 := by
  have hfile := b.sameVisit_processFile ctx.source rel ⟨size, posix, etag⟩ parent
  unfold processRegular
  rcases hpf : b.processFile ctx.source rel ⟨size, posix, etag⟩ parent with ⟨_ | c, b₁⟩
  · rw [hpf] at hfile
    exact ⟨hfile.grows, hfile.seenOk hs⟩
  · rw [hpf] at hfile
    have hb₁ : Kept b b₁ := ⟨hfile.grows, hfile.seenOk hs⟩
    have hcount := kept_counts hb₁.seen { b₁.stats with files := b₁.stats.files + 1 } b₁.report
      b₁.tick
    dsimp only
    split
    · exact hb₁.trans (hcount.trans (kept_withXattrs hcount.seen))
    · exact hb₁.trans (hcount.trans (kept_counts hcount.seen _ _ _))
    · exact hb₁.trans hcount
    · exact hb₁.trans hcount

/-- One item. -/
theorem kept_processEntry (hwalk : KeepsTrees walk) (hinj : Function.Injective b.repo.keys.treeId)
    (hs : SeenOk b) {rel : RelPath} {item : SourceItem} {parent : Option Entry}
    {r : Option Entry × Backup} (h : processEntry ctx walk b rel item parent visit = .ok r) :
    Kept b r.2 := by
  have hask : Kept b b.ask := kept_counts hs _ _ _
  unfold processEntry at h
  dsimp only at h
  generalize (if ctx.source.metaKind = .posix then ctx.source.lstat b.tick rel else none) = posix
    at h
  cases hkind : item.kind with
  | symlink target =>
    rw [hkind] at h
    cases h
    have hcount := kept_counts hask.seen { b.ask.stats with symlinks := b.ask.stats.symlinks + 1 }
      b.ask.report b.ask.tick
    exact hask.trans (hcount.trans (kept_withXattrs hcount.seen))
  | dir =>
    rw [hkind] at h
    cases walk with
    | none =>
      cases h
      exact hask.trans (kept_counts hask.seen _ _ _)
    | some w =>
      obtain ⟨r', hdir, h⟩ := bind_eq_ok.1 h
      cases h
      exact hask.trans (kept_processDir hwalk (hask.injective hinj) hask.seen hdir)
  | file size mtimeNs etag vern =>
    rw [hkind] at h
    dsimp only at h
    split_ifs at h
    · cases h
      exact hask.trans (kept_counts hask.seen _ _ _)
    · cases h
      exact hask.trans (kept_processRegular hask.seen)

variable (ctx walk d markers visit) in
/-- The entry that a round of the loop yields. -/
def Loop.entry (s : Loop) : Except String SourceItem → Option Entry
  | .error _ => none
  | .ok item =>
    match ctx.admitted markers visit (d ++ [item.name]) item with
    | none => none
    | some child =>
      if item.kind = .dir ∧ walk.isNone then none
      else
        match processEntry ctx walk s.b (d ++ [item.name]) item
          (s.parentEntry item.name).1 child with
        | .ok r => r.1
        | .error _ => none

variable (ctx walk d markers visit) in
/-- The entries that the loop yields, one after another. -/
def Loop.entries : List (Except String SourceItem) → Loop → List Entry
  | [], _ => []
  | x :: items, s =>
    match Loop.take ctx walk d markers visit s x with
    | .error _ => []
    | .ok s' => (s.entry ctx walk d visit markers x).toList ++ entries items s'

/-- The segments that are written, and the one being filled. -/
structure Loop.Holds (s : Loop) (es : List Entry) : Prop where
  seen : SeenOk s.b
  short : s.children.length < maxNodesPerTree
  segments : ∃ before, FullBefore s.b.repo.HasTree s.prev before ∧ es = before ++ s.children

/-- **One round.** Its entry comes behind those before it. -/
theorem Loop.Holds.take (hwalk : KeepsTrees walk) {s s' : Loop} {es : List Entry}
    (hinj : Function.Injective s.b.repo.keys.treeId) (hs : s.Holds es)
    {x : Except String SourceItem}
    (h : Loop.take ctx walk d markers visit s x = .ok s') :
    s'.Holds (es ++ (s.entry ctx walk d visit markers x).toList) ∧ Kept s.b s'.b := by
  obtain ⟨hseen, hshort, before, hbefore, rfl⟩ := hs
  -- a round that takes up no item
  have hskip : ∀ stats report tick, Loop.Holds { s with b := { s.b with stats, report, tick } }
      (before ++ s.children ++ (none : Option Entry).toList) ∧
        Kept s.b { s.b with stats, report, tick } :=
    fun stats report tick => ⟨⟨hseen, hshort, before, hbefore, by simp⟩, kept_counts hseen _ _ _⟩
  cases x with
  | error e =>
    cases h
    exact hskip _ _ _
  | ok item =>
    unfold Loop.take at h
    unfold Loop.entry
    dsimp only at h ⊢
    cases hadm : ctx.admitted markers visit (d ++ [item.name]) item with
    | none =>
      rw [hadm] at h
      cases h
      exact hskip _ _ _
    | some child =>
      rw [hadm] at h
      dsimp only at h ⊢
      split_ifs at h ⊢ with hdeep
      · cases h
        exact hskip _ _ _
      · obtain ⟨r, hr, h⟩ := bind_eq_ok.1 h
        have hr' := kept_processEntry hwalk hinj hseen hr
        rw [hr]
        dsimp only at h ⊢
        split_ifs at h with hfull
        · obtain ⟨y, hy, h⟩ := bind_eq_ok.1 h
          cases h
          obtain ⟨hy', htree⟩ := kept_writeTree (hr'.injective hinj) hr'.seen hy
          have hmax : (s.children ++ r.1.toList).length = maxNodesPerTree := by
            have hle : r.1.toList.length ≤ 1 := by cases r.1 <;> simp
            rw [List.length_append] at hfull ⊢
            omega
          exact ⟨⟨hy'.seen, Nat.zero_lt_succ _, _,
            .some (hbefore.mono (hr'.trans hy').grows.trees) htree hmax, by simp⟩, hr'.trans hy'⟩
        · cases h
          exact ⟨⟨hr'.seen, not_le.1 hfull, before, hbefore.mono hr'.grows.trees, by simp⟩, hr'⟩

/-- **All rounds.** -/
theorem Loop.Holds.fold (hwalk : KeepsTrees walk) {items : List (Except String SourceItem)}
    {s s' : Loop} {es : List Entry} (hinj : Function.Injective s.b.repo.keys.treeId)
    (hs : s.Holds es)
    (h : items.foldlM (Loop.take ctx walk d markers visit) s = .ok s') :
    s'.Holds (es ++ Loop.entries ctx walk d visit markers items s) ∧ Kept s.b s'.b := by
  induction items generalizing s es with
  | nil =>
    cases h
    exact ⟨by simpa [Loop.entries] using hs, .refl _, hs.seen⟩
  | cons x items ih =>
    rw [List.foldlM_cons] at h
    obtain ⟨s₁, h₁, h⟩ := bind_eq_ok.1 h
    obtain ⟨hs₁, hkept⟩ := hs.take hwalk hinj h₁
    obtain ⟨hs', hkept'⟩ := ih (hkept.injective hinj) hs₁ h
    refine ⟨?_, hkept.trans hkept'⟩
    rw [Loop.entries, h₁]
    simpa using hs'

variable (ctx walk d visit) in
/-- The entries of a directory: those that the loop of `walk_dir` yields for its items. -/
def dirEntries (b : Backup) (parent : Option TreeId) : List Entry :=
  match ctx.source.list b.tick d with
  | .error _ => []
  | .ok items => Loop.entries ctx walk d visit (enterDir ctx b d parent visit).1 items
      (enterDir ctx b d parent visit).2

theorem kept_enterDir (hs : SeenOk b) {parent : Option TreeId} :
    Kept b (enterDir ctx b d parent visit).2.b := by
  have hask : Kept b b.ask := kept_counts hs _ _ _
  have hmarkers : ∀ (ms : List Marker) (r : List Bytes × Backup), Kept b r.2 →
      Kept b (ms.foldl (fun (r : List Bytes × Backup) marker =>
        (if findsMarker ctx r.2.tick d marker then r.1 ++ [marker.name] else r.1, r.2.ask))
          r).2 := by
    intro ms
    induction ms with
    | nil => exact fun r h => h
    | cons m ms ih => exact fun r h => ih _ (h.trans (kept_counts h.seen _ _ _))
  unfold enterDir
  dsimp only
  split_ifs
  · exact hask
  · exact hmarkers _ ([], b.ask) hask

/-- **One directory.** Its segments have the entries that the loop yields. -/
theorem walkDirWith_written (hwalk : KeepsTrees walk) (hinj : Function.Injective b.repo.keys.treeId)
    (hs : SeenOk b) {parent : Option TreeId} {r : TreeId × Backup}
    (h : walkDirWith ctx walk b d parent visit = .ok r) :
    Kept b r.2 ∧ Written r.2.repo.HasTree r.1 (dirEntries ctx walk d visit b parent) := by
  unfold dirEntries
  cases hlist : ctx.source.list b.tick d with
  | error e =>
    unfold walkDirWith at h
    rw [hlist] at h
    have hcount := kept_counts hs b.stats { b.report with errors := b.report.errors + 1 }
      (b.tick + 1)
    obtain ⟨hr, htree⟩ := kept_writeTree (hcount.injective hinj) hcount.seen h
    exact ⟨hcount.trans hr, .last .none htree (Nat.zero_lt_succ _)⟩
  | ok items =>
    rw [walkDirWith_eq ctx hlist] at h
    obtain ⟨s, hfold, hwrite⟩ := bind_eq_ok.1 h
    have henter : Kept b (enterDir ctx b d parent visit).2.b := kept_enterDir hs
    have hstart : (enterDir ctx b d parent visit).2.Holds [] :=
      ⟨henter.seen, Nat.zero_lt_succ _, [], .none, rfl⟩
    obtain ⟨⟨hseen, hshort, before, hbefore, heq⟩, hkept⟩ :=
      hstart.fold hwalk (henter.injective hinj) hfold
    have hs' := henter.trans hkept
    obtain ⟨hr, htree⟩ := kept_writeTree (hs'.injective hinj) hseen hwrite
    rw [List.nil_append] at heq
    simp only [heq]
    exact ⟨hs'.trans hr, .last (hbefore.mono hr.grows.trees) htree hshort⟩

theorem keepsTrees_walkBelow : ∀ levels, KeepsTrees (walkBelow ctx levels)
  | 0 => nofun
  | levels + 1 => fun w hw b d parent visit r hinj hs h => by
    cases hw
    rw [walkDir_eq] at h
    exact (walkDirWith_written (keepsTrees_walkBelow levels) hinj hs h).1

/-- What `walk_dir` writes is read back. -/
theorem readTreeChain_walkDir {levels : ℕ} {parent : Option TreeId} {id : TreeId}
    (hinj : Function.Injective b.repo.keys.treeId) (hs : SeenOk b)
    (h : walkDir ctx levels b d parent visit = .ok (id, b')) :
    SeenOk b' ∧
      b'.repo.readTreeChain id = .ok (dirEntries ctx (walkBelow ctx levels) d visit b parent) := by
  rw [walkDir_eq] at h
  obtain ⟨hkept, hwritten⟩ := walkDirWith_written (keepsTrees_walkBelow levels) hinj hs h
  exact ⟨hkept.seen, Repository.readTreeChain_ok_iff.2 (Repository.trail_of_chain hwritten.chain)⟩

end Walk

theorem seenOk_startBackup {repo : Repository} {chunker : Chunking.Chunker} {nonce : ℕ} {now : Time}
    {index : ChunkIndex} {start : ℤ} :
    SeenOk (repo.startBackup chunker nonce now index start) :=
  List.forall_mem_nil _

end Backup

open Repository Backup

/-- `ParentStream` looks names in increasing order up in the whole directory. -/
theorem takeNames_openParent {repo : Repository} {last : TreeId} {es : List Entry}
    (h : repo.readTreeChain last = .ok es) (hsorted : es.Pairwise fun a b => a.name < b.name) :
    ∃ s, repo.openParent last = .ok s ∧ ∀ queries : List (Repository × Bytes),
      (∀ q ∈ queries, ∀ id t, repo.HasTree id t → q.1.HasTree id t) →
      (queries.map Prod.snd).Pairwise (· < ·) →
        takeNames s queries = queries.map fun q => es.find? fun e => e.name = q.2 := by
  obtain ⟨l, hl, rfl⟩ := readTreeChain_ok_iff.1 h
  refine ⟨_, openParent_ok_iff.2 ⟨l, hl, rfl⟩, fun queries hrepo hqueries => ?_⟩
  have hrest : Rest repo.HasTree ⟨(l.map Prod.fst).reverse, []⟩ (trailEntries l) :=
    ⟨l.reverse, by rw [List.map_reverse], fun x hx => hl.hasTree x (List.mem_reverse.1 hx), rfl⟩
  exact takeNames_rest hrest hsorted hrepo hqueries

/-- **Segments.** What the walk of a directory writes is read back as the entries that its loop
yields; in a chain whose entries are in order by their names, `take_name` for names in increasing
order finds what the whole list has; and a chain that comes back to a tree is an error to both. The
bound on the length of a chain is not what ends them. -/
theorem segments_round_trip :
    (∀ (repo : Repository) chunker nonce now index start,
      SeenOk (repo.startBackup chunker nonce now index start)) ∧
    (∀ (ctx : SourceCtx) (levels : ℕ) (b b' : Backup) (d : RelPath) (parent : Option TreeId)
      (visit : Visit) (id : TreeId), Function.Injective b.repo.keys.treeId → SeenOk b →
      walkDir ctx levels b d parent visit = .ok (id, b') → SeenOk b' ∧
        b'.repo.readTreeChain id = .ok (dirEntries ctx (walkBelow ctx levels) d visit b parent)) ∧
    (∀ (repo : Repository) (last : TreeId) (es : List Entry), repo.readTreeChain last = .ok es →
      (es.Pairwise fun a b => a.name < b.name) →
      ∃ s, repo.openParent last = .ok s ∧ ∀ queries : List (Repository × Bytes),
        (∀ q ∈ queries, ∀ id t, repo.HasTree id t → q.1.HasTree id t) →
        (queries.map Prod.snd).Pairwise (· < ·) →
          takeNames s queries = queries.map fun q => es.find? fun e => e.name = q.2) ∧
    (∀ (repo : Repository) (last : TreeId), repo.Loops last →
      (∃ id, repo.readTreeChain last = .error (.corrupt (.tree id) "tree chain loops")) ∧
        ∃ id, repo.openParent last = .error (.corrupt (.tree id) "tree chain loops")) ∧
    ∀ (repo : Repository) (last : TreeId) (k : ℕ),
      let n := repo.store.trees.entries.length + repo.store.treeReplicas.entries.length + 1
      repo.readChain (n + k) [] last = repo.readTreeChain last ∧
        repo.chainIds (n + k) [] (some last) = repo.chainIds n [] (some last) := by
  exact ⟨fun _ _ _ _ _ _ => seenOk_startBackup, fun _ _ _ _ _ _ _ _ hinj hs h =>
    readTreeChain_walkDir hinj hs h, fun _ _ _ h hsorted => takeNames_openParent h hsorted,
    fun repo last h => ⟨readChain_loops h, openParent_loops h⟩,
    fun repo last k => ⟨readTreeChain_unbounded last k, chainIds_unbounded last k⟩⟩

/-! ### A directory of two links -/

/-- A source of two links. -/
def linkSource : Source where
  metaKind := .generic
  list _ _ := .ok [.ok ⟨[97], .symlink [120]⟩, .ok ⟨[98], .symlink [120]⟩]
  read _ _ := .unreadable "no such file"
  probe _ _ _ := .ok none
  lstat _ _ := none
  xattrs _ _ := none

/-- The entry of a link. -/
def linkEntry (name : Bytes) : Entry :=
  { name, kind := .symlink, metaKind := .generic, target := [120] }

/-- A repository with a tree that comes before itself. -/
def loopRepository : Repository :=
  { Repository.emptyIdeal with
    keys := { RepoKeys.ideal with treeId := fun _ => 9 }
    store := { Repository.emptyIdeal.store with
      trees := Dict.collect [(9, .tree 9 (.new [] (some 9)))] } }

/-- The trees of a chain of two segments. -/
def twoSegments : Tree × Tree :=
  (.new [linkEntry [97], linkEntry [98]] none, .new [linkEntry [99], linkEntry [100]] (some 1))

/-- A repository with this chain, whose trees are numbered. -/
def chainRepository : Repository :=
  { Repository.emptyIdeal with
    keys := { RepoKeys.ideal with treeId := fun t => if t.prev.isNone then 1 else 2 }
    store := { Repository.emptyIdeal.store with
      trees := Dict.collect [(1, .tree 1 twoSegments.1), (2, .tree 2 twoSegments.2)] } }

theorem segments_round_trip_linkSource :
    (∃ id b', walkDir (unfiltered linkSource) 0 firstStart [] none (.root {} none) = .ok (id, b') ∧
      b'.repo.readTreeChain id = .ok [linkEntry [97], linkEntry [98]] ∧
      ∃ s, b'.repo.openParent id = .ok s ∧
        takeNames s [(b'.repo, [96]), (b'.repo, [98])] = [none, some (linkEntry [98])]) ∧
    (∃ s, chainRepository.openParent 2 = .ok s ∧
      takeNames s ([[97], [98, 50], [99], [100], [101]].map fun name => (chainRepository, name)) =
        [some (linkEntry [97]), none, some (linkEntry [99]), some (linkEntry [100]), none]) ∧
    ∃ id, loopRepository.readTreeChain 9 = .error (.corrupt (.tree id) "tree chain loops") := by
  obtain ⟨-, hwalk, htake, hloops, -⟩ := segments_round_trip
  refine ⟨?_, ?_, ?_⟩
  · obtain ⟨⟨id, b'⟩, h⟩ : ∃ r,
        walkDir (unfiltered linkSource) 0 firstStart [] none (.root {} none) = .ok r := by
      have hok : (walkDir (unfiltered linkSource) 0 firstStart [] none (.root {} none)).isOk := by
        decide +kernel
      cases h : walkDir (unfiltered linkSource) 0 firstStart [] none (.root {} none) with
      | error e => rw [h] at hok; cases hok
      | ok r => exact ⟨r, rfl⟩
    have hread := (hwalk _ _ _ _ _ _ _ _ RepoKeys.treeId_ideal_injective seenOk_startBackup h).2
    obtain ⟨s, hs, hqueries⟩ := htake b'.repo id _ hread (by decide)
    exact ⟨id, b', h, hread, s, hs, hqueries [(b'.repo, [96]), (b'.repo, [98])]
      (fun q hq => by
        simp only [List.mem_cons, List.not_mem_nil, or_false] at hq
        rcases hq with rfl | rfl <;> exact fun _ _ h => h)
      (show [[96], [98]].Pairwise fun a b : Bytes => a < b by decide)⟩
  · have hread : chainRepository.readTreeChain 2 =
        .ok (twoSegments.1.entries ++ twoSegments.2.entries) := rfl
    obtain ⟨s, hs, hqueries⟩ := htake chainRepository 2 _ hread (by decide)
    refine ⟨s, hs, (hqueries _ (fun q hq => ?_) ?_).trans (by decide)⟩
    · obtain ⟨name, -, rfl⟩ := List.mem_map.1 hq
      exact fun _ _ h => h
    · rw [List.map_map]
      decide
  · have hprecedes : loopRepository.Precedes 9 9 := ⟨.new [] (some 9), rfl, rfl⟩
    exact (hloops loopRepository 9 ⟨9, .refl, .single hprecedes⟩).1

end Kist
