import Kist.Backup.Plan
import Kist.Lib.Checked
import Kist.Lib.SortedTable

/-!
# The upper levels of a mounted snapshot

`kist-mount::vpath`: the locators of the roots of a snapshot, cut into components, span directories
that the repository does not hold. A root lies at the last component of its locator; one without
components is spread over the top.

* `VirtualRoot.sorted_level`: a level is sorted by name, and holds no name twice.
* `VirtualRoot.lookup_level`: what a level lists is what is found in it.
-/

namespace SortedTable

variable {α κ : Type*} [LinearOrder κ] (key : α → κ)

/-- The element at the `partition_point` of a key, if it has this key. -/
def find (l : List α) (k : κ) : Option α :=
  l[(l.takeWhile fun a => key a < k).length]?.filter fun a => key a = k

theorem mem_of_find {l : List α} {k : κ} {a : α} (h : find key l k = some a) :
    a ∈ l ∧ key a = k := by
  obtain ⟨hget, hkey⟩ := Option.filter_eq_some_iff.1 h
  exact ⟨List.mem_of_getElem? hget, of_decide_eq_true hkey⟩

/-- In a sorted list the element with the key is there. -/
theorem find_eq_some_iff {l : List α} (hl : Sorted key l) {k : κ} {a : α} :
    find key l k = some a ↔ a ∈ l ∧ key a = k := by
  refine ⟨mem_of_find key, ?_⟩
  rintro ⟨ha, rfl⟩
  induction l with
  | nil => cases ha
  | cons x l ih =>
    obtain ⟨hx, hl⟩ := List.pairwise_cons.1 hl
    by_cases hlt : key x < key a
    · have hmem : a ∈ l := (List.mem_cons.1 ha).resolve_left fun h => (h ▸ hlt).false
      rw [find, List.takeWhile_cons_of_pos (by simpa using hlt), List.length_cons,
        List.getElem?_cons_succ]
      exact ih hl hmem
    · have hxa : a = x := (List.mem_cons.1 ha).resolve_right fun h => hlt (hx a h)
      rw [find, List.takeWhile_cons_of_neg (by simpa using hlt), ← hxa]
      simp

end SortedTable

namespace Kist

open SortedTable (Sorted)

/-- `VEntry`: an entry of a virtual level, real or the directory that the repository does not
hold. -/
inductive VEntry
  | real (e : Entry)
  | synthetic (name : Bytes)
  deriving DecidableEq, Repr

/-- `VEntry::name`. -/
def VEntry.name : VEntry → Bytes
  | .real e => e.name
  | .synthetic name => name

/-- `VEntry::entry`. -/
def VEntry.entry : VEntry → Option Entry
  | .real e => some e
  | .synthetic _ => none

/-- `VirtualRoot`: the levels by their paths, the top one under the empty path. -/
structure VirtualRoot where
  levels : Dict Bytes (List VEntry)

/-- `RootContents`. -/
inductive RootContents
  | dir
  | leaf (e : Entry)
  | flatten (entries : List Entry)
  deriving DecidableEq, Repr

/-- `root_leaf_entry`: the directory that stands for a root. -/
def rootLeafEntry (name : Bytes) (subtree : TreeId) : Entry where
  name := name
  kind := .dir
  metaKind := .posix
  subtree := subtree
  mode := some 0o040555
  uid := some 0
  gid := some 0
  mtimeNs := some 0

namespace VirtualRoot

/-- `has_name`. -/
def hasName (level : List VEntry) (name : Bytes) : Bool := level.any fun v => v.name = name

/-- The level under a path, which is made where there is none. -/
def levelIn (levels : Dict Bytes (List VEntry)) (key : Bytes) : List VEntry :=
  (levels.lookup key).getD []

/-- `push_real`: an entry replaces the one of its name. -/
def pushReal (levels : Dict Bytes (List VEntry)) (key : Bytes) (e : Entry) :
    Dict Bytes (List VEntry) :=
  let level := levelIn levels key
  levels.insert key <|
    match level.findIdx? fun v => v.name = e.name with
    | some i => level.set i (.real e)
    | none => level ++ [.real e]

/-- One component above the root: a directory, unless its name is taken. -/
def pushSynthetic (levels : Dict Bytes (List VEntry)) (key : Bytes) (comp : Bytes) :
    Dict Bytes (List VEntry) :=
  let level := levelIn levels key
  levels.insert key (if hasName level comp then level else level ++ [.synthetic comp])

/-- The components above the root, from the level under `parent` on, and the path that they
spell. -/
def pushParents : Dict Bytes (List VEntry) → Bytes → List Bytes → Dict Bytes (List VEntry) × Bytes
  | levels, parent, [] => (levels, parent)
  | levels, parent, comp :: comps =>
    pushParents (pushSynthetic levels parent comp) (parent ++ 47 :: comp) comps

/-- One root. -/
def pushRoot (levels : Dict Bytes (List VEntry)) (root : Root) (contents : RootContents) :
    Except CoreError (Dict Bytes (List VEntry)) := do
  let comps ← locatorComponents root.path
  match comps.getLast? with
  | none =>
    match contents with
    | .flatten entries => return entries.foldl (fun levels e => pushReal levels [] e) levels
    | .dir | .leaf _ => return levels
  | some last =>
    let (levels, parent) := pushParents levels [] comps.dropLast
    let leaf := match contents with
      | .dir | .flatten _ => rootLeafEntry last root.tree
      | .leaf e => e
    return pushReal levels parent leaf

/-- The roots one after the other. -/
def pushRoots : Dict Bytes (List VEntry) → List (Root × RootContents) →
    Except CoreError (Dict Bytes (List VEntry))
  | levels, [] => .ok levels
  | levels, (root, contents) :: roots => do
    let levels ← pushRoot levels root contents
    pushRoots levels roots

/-- `VirtualRoot::build`. -/
def build (roots : List (Root × RootContents)) : Except CoreError VirtualRoot := do
  let levels ← pushRoots ∅ roots
  return ⟨Dict.mapValues (fun level => level.insertionSort fun a b => a.name ≤ b.name) levels⟩

variable (root : VirtualRoot)

/-- `VirtualRoot::level`. -/
def level (key : Bytes) : List VEntry := levelIn root.levels key

/-- `VirtualRoot::lookup`. -/
def lookup (level : List VEntry) (name : Bytes) : Option VEntry :=
  SortedTable.find VEntry.name level name

/-! ### The levels -/

/-- No level holds a name twice. -/
def Distinct (levels : Dict Bytes (List VEntry)) : Prop :=
  ∀ key, ((levelIn levels key).map VEntry.name).Nodup

variable {levels : Dict Bytes (List VEntry)} {key : Bytes}

theorem levelIn_insert (l : List VEntry) (k : Bytes) :
    levelIn (levels.insert key l) k = if k = key then l else levelIn levels k := by
  unfold levelIn
  rw [Dict.lookup_insert']
  split_ifs <;> rfl

theorem Distinct.insert (h : Distinct levels) {l : List VEntry} (hl : (l.map VEntry.name).Nodup) :
    Distinct (levels.insert key l) := fun k => by
  rw [levelIn_insert]
  split_ifs
  · exact hl
  · exact h k

theorem nodup_concat {l : List VEntry} {v : VEntry} (h : (l.map VEntry.name).Nodup)
    (hv : ∀ x ∈ l, x.name ≠ v.name) : ((l ++ [v]).map VEntry.name).Nodup := by
  rw [List.map_append, List.map_singleton, List.nodup_append]
  refine ⟨h, List.nodup_singleton _, fun name hname name' hname' => ?_⟩
  obtain ⟨x, hx, rfl⟩ := List.mem_map.1 hname
  rw [List.mem_singleton.1 hname']
  exact hv x hx

theorem Distinct.pushReal (h : Distinct levels) (e : Entry) :
    Distinct (pushReal levels key e) := by
  unfold VirtualRoot.pushReal
  refine h.insert ?_
  cases hi : (levelIn levels key).findIdx? fun v => v.name = e.name with
  | some i =>
    obtain ⟨hlt, hname, -⟩ := List.findIdx?_eq_some_iff_getElem.1 hi
    have hsame : ((levelIn levels key).set i (.real e)).map VEntry.name =
        (levelIn levels key).map VEntry.name := by
      have hlt' : i < ((levelIn levels key).map VEntry.name).length := by rwa [List.length_map]
      have hget : ((levelIn levels key).map VEntry.name)[i] = e.name := by
        rw [List.getElem_map]
        exact of_decide_eq_true hname
      rw [List.map_set, VEntry.name, ← hget, List.set_getElem_self]
    dsimp only
    rw [hsame]
    exact h key
  | none =>
    refine nodup_concat (h key) fun x hx hname => ?_
    have hnot := List.findIdx?_eq_none_iff.1 hi x hx
    exact absurd hname (of_decide_eq_false hnot)

theorem Distinct.pushSynthetic (h : Distinct levels) (comp : Bytes) :
    Distinct (pushSynthetic levels key comp) := by
  unfold VirtualRoot.pushSynthetic
  refine h.insert ?_
  split_ifs with hname
  · exact h key
  · refine nodup_concat (h key) fun x hx hx' => hname ?_
    exact List.any_eq_true.2 ⟨x, hx, decide_eq_true hx'⟩

theorem Distinct.pushParents (comps : List Bytes) : ∀ {levels : Dict Bytes (List VEntry)}
    {parent : Bytes}, Distinct levels → Distinct (pushParents levels parent comps).1 := by
  induction comps with
  | nil => exact fun h => h
  | cons comp comps ih => exact fun h => ih (h.pushSynthetic comp)

theorem Distinct.pushRoot (h : Distinct levels) {root : Root} {contents : RootContents}
    {levels' : Dict Bytes (List VEntry)} (hroot : pushRoot levels root contents = .ok levels') :
    Distinct levels' := by
  obtain ⟨comps, -, hroot⟩ := Checked.bind_eq_ok.1 hroot
  cases hlast : comps.getLast? with
  | none =>
    rw [hlast] at hroot
    cases contents with
    | flatten entries =>
      cases hroot
      have hall : ∀ (entries : List Entry) (levels : Dict Bytes (List VEntry)), Distinct levels →
          Distinct (entries.foldl (fun levels e => VirtualRoot.pushReal levels [] e) levels) := by
        intro entries
        induction entries with
        | nil => exact fun _ h => h
        | cons e entries ih => exact fun _ h => ih _ (h.pushReal e)
      exact hall entries levels h
    | dir | leaf e =>
      cases hroot
      exact h
  | some last =>
    rw [hlast] at hroot
    cases hroot
    exact (h.pushParents _).pushReal _

theorem Distinct.pushRoots : ∀ {roots : List (Root × RootContents)}
    {levels levels' : Dict Bytes (List VEntry)}, Distinct levels →
      pushRoots levels roots = .ok levels' → Distinct levels'
  | [], _, _, h, hroots => by
    cases hroots
    exact h
  | (root, contents) :: roots, _, _, h, hroots => by
    obtain ⟨levels₁, hroot, hroots⟩ := Checked.bind_eq_ok.1 hroots
    exact Distinct.pushRoots (h.pushRoot hroot) hroots

variable {root}

/-- **The levels.** A level is sorted by name and holds no name twice. -/
theorem sorted_level {roots : List (Root × RootContents)} (h : build roots = .ok root)
    (key : Bytes) : Sorted VEntry.name (root.level key) := by
  obtain ⟨levels, hlevels, h⟩ := Checked.bind_eq_ok.1 h
  cases h
  have hnew : Distinct ∅ := fun _ => List.nodup_nil
  have hdistinct := hnew.pushRoots hlevels key
  unfold level levelIn
  rw [Dict.lookup_mapValues]
  unfold levelIn at hdistinct
  cases hl : levels.lookup key with
  | none => exact .nil
  | some l =>
    rw [hl, Option.getD_some] at hdistinct
    rw [Option.map_some, Option.getD_some]
    have hle := SortedTable.pairwise_insertionSort_key VEntry.name l
    have hperm := List.perm_insertionSort (fun a b : VEntry => a.name ≤ b.name) l
    have hne : (l.insertionSort fun a b => a.name ≤ b.name).Pairwise
        fun a b => a.name ≠ b.name :=
      List.pairwise_map.1 ((hperm.map VEntry.name).nodup_iff.2 hdistinct)
    exact hle.imp₂ (fun _ _ => lt_of_le_of_ne) hne

/-- What a level lists is what is found in it. -/
theorem lookup_level {roots : List (Root × RootContents)} (h : build roots = .ok root)
    {key name : Bytes} {v : VEntry} :
    lookup (root.level key) name = some v ↔ v ∈ root.level key ∧ v.name = name :=
  SortedTable.find_eq_some_iff VEntry.name (sorted_level h key)

/-- Two roots whose locators have the same components are one entry, the later root. -/
example : (build [(⟨[47, 97, 47, 98], 1⟩, .dir), (⟨[97, 47, 98], 2⟩, .dir)]).toOption.map
    (fun root => root.level [47, 97]) = some [.real (rootLeafEntry [98] 2)] := by decide

end VirtualRoot
end Kist
