import Kist.Backup.Plan
import Kist.Backup.WalkSpec

/-!
# Which items a backup records

The rules of exclusion said without a walk, in terms of absolute paths: `SourceTree.Selected`. An
item is judged by the elements between the nearest source that was given and the item itself.

* `contains_iff`: the trees that the walk of a source leaves behind contain exactly the items that
  are selected.
-/

namespace Kist

/-- The nearest given source at or above a path. -/
structure Nearest (given : List RelPath) (n p : RelPath) : Prop where
  mem : n ∈ given
  above : n <+: p
  last : ∀ m ∈ given, m <+: p → m <+: n

namespace SourceTree

variable (tree : SourceTree) (exclude : Exclusions) (given : List RelPath)

/-- The device of an item. -/
def dev (p : RelPath) : Option ℕ := (tree.node p).map fun node => node.posix.dev

/-- An element is excluded by its path, by its size, or by a marker in its directory. -/
inductive ExcludedByRule (e : RelPath) : Prop
  | pattern (h : exclude.patterns.Selects e)
  | large {posix : PosixMeta} {content : Bytes} {limit : ℕ}
    (hnode : tree.node e = some (.file posix content)) (hlimit : exclude.largerThan = some limit)
    (h : limit < content.length)
  | marker {marker : Marker} (hmem : marker ∈ exclude.ifPresent)
    (h : tree.validMarker e.dropLast marker)
    (hnot : ∀ m ∈ exclude.ifPresent, tree.validMarker e.dropLast m → e.getLast? ≠ some m.name)

/-- An element below a source `n` is excluded: by a rule, as a file on another device than the one
of `n`, or by a directory on the way to it that is on another device. -/
inductive Excluded (n e : RelPath) : Prop
  | rule (h : tree.ExcludedByRule exclude e)
  | file {posix : PosixMeta} {content : Bytes} (hone : exclude.oneFileSystem = true)
    (hnode : tree.node e = some (.file posix content)) (h : tree.dev e ≠ tree.dev n)
  | behind {g : RelPath} (hone : exclude.oneFileSystem = true) (hn : Below n g) (he : Below g e)
    (h : tree.dev g ≠ tree.dev n)

/-- **Selection.** An item is given, or on the way to one that is given, or no element from its
nearest source down to it is excluded. -/
def Selected (p : RelPath) : Prop :=
  p ∈ given ∨ (∃ q ∈ given, Below p q) ∨
    ∃ n, Nearest given n p ∧ ∀ e, Below n e → e <+: p → ¬tree.Excluded exclude n e

/-- An element on the way from `n` down to `p` is excluded. -/
def Barred (n p : RelPath) : Prop := ∃ e, Below n e ∧ e <+: p ∧ tree.Excluded exclude n e

/-- What lies below `p` is excluded. -/
def Blocked (n p : RelPath) : Prop :=
  tree.Barred exclude n p ∨
    ∃ g, Below n g ∧ g <+: p ∧ exclude.oneFileSystem = true ∧ tree.dev g ≠ tree.dev n

/-- An item that is neither given nor on the way to one that is given. -/
def Plain (given : List RelPath) (p : RelPath) : Prop := p ∉ given ∧ ∀ q ∈ given, ¬Below p q

end SourceTree

/-! ### Sources and the elements below them -/

section Nearest

variable {tree : SourceTree} {exclude : Exclusions} {given : List RelPath} {n m p q : RelPath}
  {x : Bytes}

theorem Nearest.unique (h : Nearest given n p) (h' : Nearest given m p) : n = m :=
  (h'.last n h.mem h.above).eq_of_length_le (h.last m h'.mem h'.above).length_le

theorem Nearest.self (h : p ∈ given) : Nearest given p p := ⟨h, List.prefix_rfl, fun _ _ h => h⟩

/-- A path that is not given has the nearest source of its directory. -/
theorem Nearest.child (h : Nearest given n p) (hx : p ++ [x] ∉ given) :
    Nearest given n (p ++ [x]) := by
  refine ⟨h.mem, h.above.trans (List.prefix_append _ _), fun m hm hp => ?_⟩
  rcases List.prefix_concat_iff.1 hp with rfl | hp
  · exact absurd hm hx
  · exact h.last m hm hp

/-- Below a path under which nothing is given, its nearest source stays the nearest. -/
theorem Nearest.below (h : Nearest given n p) (hp : SourceTree.Plain given p) (hpq : Below p q) :
    Nearest given n q := by
  refine ⟨h.mem, h.above.trans hpq.1, fun m hm hmq => ?_⟩
  rcases List.prefix_or_prefix_of_prefix hmq hpq.1 with hmp | hpm
  · exact h.last m hm hmp
  · rcases eq_or_ne p m with rfl | hne
    · exact absurd hm hp.1
    · exact absurd ⟨hpm, hne⟩ (hp.2 m hm)

theorem below_concat_iff : Below n (p ++ [x]) ↔ n <+: p := by
  rw [Below, List.prefix_concat_iff]
  constructor
  · exact fun h => h.1.resolve_left h.2
  · refine fun h => ⟨.inr h, ?_⟩
    rintro rfl
    simpa using h.length_le

end Nearest

namespace SourceTree

variable {tree : SourceTree} {exclude : Exclusions} {given : List RelPath} {n p q : RelPath}
  {x : Bytes}

/-- The elements down to an item are those down to its directory, and the item. -/
theorem barred_concat (hn : n <+: p) : tree.Barred exclude n (p ++ [x]) ↔
    tree.Blocked exclude n p ∨ tree.ExcludedByRule exclude (p ++ [x]) ∨
      (∃ posix content, exclude.oneFileSystem = true ∧
        tree.node (p ++ [x]) = some (.file posix content) ∧ tree.dev (p ++ [x]) ≠ tree.dev n) := by
  constructor
  · rintro ⟨e, hne, hep, he⟩
    rcases List.prefix_concat_iff.1 hep with rfl | hep
    · cases he with
      | rule h => exact .inr (.inl h)
      | file hone hnode h => exact .inr (.inr ⟨_, _, hone, hnode, h⟩)
      | behind hone hg hge h => exact .inl (.inr ⟨_, hg, below_concat_iff.1 hge, hone, h⟩)
    · exact .inl (.inl ⟨e, hne, hep, he⟩)
  · have hself : Below n (p ++ [x]) := below_concat_iff.2 hn
    rintro ((⟨e, hne, hep, he⟩ | ⟨g, hg, hgp, hone, h⟩) | h | ⟨posix, content, hone, hnode, h⟩)
    · exact ⟨e, hne, hep.trans (List.prefix_append _ _), he⟩
    · exact ⟨_, hself, List.prefix_rfl, .behind hone hg (below_concat_iff.2 hgp) h⟩
    · exact ⟨_, hself, List.prefix_rfl, .rule h⟩
    · exact ⟨_, hself, List.prefix_rfl, .file hone hnode h⟩

theorem blocked_concat (hn : n <+: p) : tree.Blocked exclude n (p ++ [x]) ↔
    tree.Barred exclude n (p ++ [x]) ∨
      (exclude.oneFileSystem = true ∧ tree.dev (p ++ [x]) ≠ tree.dev n) := by
  constructor
  · rintro (h | ⟨g, hg, hgp, hone, h⟩)
    · exact .inl h
    · rcases List.prefix_concat_iff.1 hgp with rfl | hgp
      · exact .inr ⟨hone, h⟩
      · exact .inl ((barred_concat hn).2 (.inl (.inr ⟨g, hg, hgp, hone, h⟩)))
  · rintro (h | ⟨hone, h⟩)
    · exact .inl h
    · exact .inr ⟨_, below_concat_iff.2 hn, List.prefix_rfl, hone, h⟩

theorem not_blocked_self : ¬tree.Blocked exclude n n := by
  rintro (⟨e, he, hen, -⟩ | ⟨g, hg, hgn, -⟩)
  · exact he.2 (he.1.eq_of_length_le hen.length_le)
  · exact hg.2 (hg.1.eq_of_length_le hgn.length_le)

/-- Selection by the elements from the nearest source. -/
theorem selected_iff (hn : Nearest given n p) :
    tree.Selected exclude given p ↔ ¬Plain given p ∨ ¬tree.Barred exclude n p := by
  unfold Selected Plain
  constructor
  · rintro (h | ⟨q, hq, h⟩ | ⟨m, hm, h⟩)
    · exact .inl fun hp => hp.1 h
    · exact .inl fun hp => hp.2 q hq h
    · rw [← hn.unique hm] at h
      exact .inr fun ⟨e, he, hep, hex⟩ => h e he hep hex
  · rintro (h | h)
    · by_cases hp : p ∈ given
      · exact .inl hp
      · have : ∃ q ∈ given, Below p q := by
          by_contra hq
          push Not at hq
          exact h ⟨hp, hq⟩
        exact .inr (.inl this)
    · exact .inr (.inr ⟨n, hn, fun e he hep hex => h ⟨e, he, hep, hex⟩⟩)

/-- Nothing is selected below an item that is blocked and has nothing given below it. -/
theorem not_selected_below (hn : Nearest given n p) (hp : Plain given p)
    (hb : tree.Blocked exclude n p) (hpq : Below p q) : ¬tree.Selected exclude given q := by
  have hplain : Plain given q := by
    refine ⟨fun hq => hp.2 q hq hpq, fun r hr hqr => ?_⟩
    exact hp.2 r hr (hpq.trans hqr.1)
  rw [selected_iff (hn.below hp hpq)]
  push Not
  refine ⟨hplain, ?_⟩
  rcases hb with ⟨e, hne, hep, he⟩ | ⟨g, hg, hgp, hone, h⟩
  · exact ⟨e, hne, hep.trans hpq.1, he⟩
  · refine ⟨q, (hg.trans hgp).trans hpq.1, List.prefix_rfl, .behind hone hg ⟨hgp.trans hpq.1, ?_⟩ h⟩
    rintro rfl
    exact hpq.2 (hpq.1.eq_of_length_le hgp.length_le)

/-! ### The walk of one source -/

/-- The walk of the source `a` of those given: the items named there are the given paths below. -/
structure WalkOf (tree : SourceTree) (exclude : Exclusions) (given : List RelPath) (a : RelPath)
    (ctx : SourceCtx) : Prop where
  root : a ∈ given
  named : ∃ paths, ctx.named = .new paths ∧ ∀ rel, rel ∈ paths ↔ rel ≠ [] ∧ a ++ rel ∈ given
  exclude : ctx.exclude = exclude
  present : ∀ g ∈ given, (tree.node g).isSome

/-- What the visit of the content of a directory stands for. -/
structure Inside (tree : SourceTree) (exclude : Exclusions) (given : List RelPath) (p : RelPath)
    (visit : Visit) : Prop where
  filter : visit.filter = exclude.patterns.walk exclude.patterns.start p
  nearest : ∃ n, Nearest given n p ∧
    visit.devBound = (if exclude.oneFileSystem then tree.dev n else none) ∧
    (visit.passThrough = true ↔ tree.Blocked exclude n p)

section Walk

variable {a d rel : RelPath} {ctx : SourceCtx} {visit child : Visit} {node : SourceNode}

theorem mem_tail_inits {l : RelPath} : rel ∈ l.inits.tail ↔ rel ≠ [] ∧ rel <+: l := by
  cases l with
  | nil => simp [List.inits]
  | cons b l =>
    rw [List.inits_cons, List.tail_cons, List.mem_map]
    constructor
    · rintro ⟨r, hr, rfl⟩
      exact ⟨by simp, by simpa using hr⟩
    · rintro ⟨hne, hp⟩
      obtain ⟨c, r, rfl⟩ := List.exists_cons_of_ne_nil hne
      obtain ⟨rfl, hr⟩ := List.cons_prefix_cons.1 hp
      exact ⟨r, by simpa using hr, rfl⟩

theorem WalkOf.mem_paths (h : WalkOf tree exclude given a ctx) (hrel : rel ≠ []) :
    rel ∈ ctx.named.paths ↔ a ++ rel ∈ given := by
  obtain ⟨paths, hnamed, hpaths⟩ := h.named
  rw [hnamed, Named.new, hpaths]
  exact and_iff_right hrel

theorem WalkOf.mem_toward (h : WalkOf tree exclude given a ctx) (hrel : rel ≠ []) :
    rel ∈ ctx.named.toward ↔ ∃ q ∈ given, Below (a ++ rel) q := by
  obtain ⟨paths, hnamed, hpaths⟩ := h.named
  rw [hnamed, Named.new]
  simp only [List.mem_flatMap, mem_tail_inits]
  constructor
  · rintro ⟨path, hpath, -, hp⟩
    obtain ⟨hne, hmem⟩ := (hpaths path).1 hpath
    refine ⟨_, hmem, (List.prefix_append_right_inj a).2 (hp.trans (List.dropLast_prefix _)), ?_⟩
    rw [ne_eq, List.append_cancel_left_eq]
    rintro rfl
    have := hp.length_le
    rw [List.length_dropLast] at this
    have := List.length_pos_of_ne_nil hne
    omega
  · rintro ⟨q, hq, hb⟩
    obtain ⟨path, rfl⟩ := (List.prefix_append a rel).trans hb.1
    have hp : rel <+: path := (List.prefix_append_right_inj a).1 hb.1
    have hne : rel ≠ path := fun he => hb.2 (by rw [he])
    have hpath : path ≠ [] := by
      rintro rfl
      exact hne (List.prefix_nil.1 hp)
    refine ⟨path, (hpaths path).2 ⟨hpath, hq⟩, hrel, ?_⟩
    rw [← List.dropLast_append_getLast hpath, List.prefix_concat_iff] at hp
    rw [← List.dropLast_append_getLast hpath] at hne
    exact hp.resolve_left hne

/-- What decides about an item: it is left out when it is excluded or the walk only passes through,
unless it is named or leads to what is named. -/
theorem admitted_eq (markers : Option (List Bytes)) (item : SourceItem) :
    ctx.admitted markers visit rel item =
      let named := decide (rel ∈ ctx.named.paths)
      let toward := !named && decide (rel ∈ ctx.named.toward)
      let filter := ctx.exclude.patterns.descend visit.filter item.name
      let out := visit.passThrough || (filter.isMatch || ctx.tooLarge item.kind ||
        markers.any fun names => decide (item.name ∉ names))
      if out && !named && !toward then none
      else some ⟨filter, visit.devBound, !named && out, named, toward⟩ := by
  unfold SourceCtx.admitted
  dsimp only
  generalize decide (rel ∈ ctx.named.paths) = named
  generalize decide (rel ∈ ctx.named.toward) = toward
  generalize ((ctx.exclude.patterns.descend visit.filter item.name).isMatch ||
    ctx.tooLarge item.kind || markers.any fun names => decide (item.name ∉ names)) = excluded
  cases visit.passThrough <;> cases named <;> cases toward <;> cases excluded <;> rfl

theorem validMarker_below (marker : Marker) :
    (tree.below a).validMarker d marker = tree.validMarker (a ++ d) marker := by
  unfold validMarker below
  rw [List.append_assoc]

/-- An item that is not itself a marker, in a directory that has one. -/
theorem besideMarker_iff (hpass : visit.passThrough = false) :
    ((tree.markers exclude d visit).any fun names => decide (x ∉ names)) = true ↔
      ∃ marker ∈ exclude.ifPresent, tree.validMarker d marker ∧
        ∀ m ∈ exclude.ifPresent, tree.validMarker d m → x ≠ m.name := by
  have hfound : ∀ name, name ∈ (exclude.ifPresent.filter (tree.validMarker d)).map Marker.name ↔
      ∃ m ∈ exclude.ifPresent, tree.validMarker d m ∧ m.name = name := fun name => by
    simp [and_assoc]
  unfold markers
  split_ifs with hnone
  · have : exclude.ifPresent = [] := hnone.resolve_right (by simp [hpass])
    simp [this]
  dsimp only
  split_ifs with hempty
  · simp only [Option.any_none, Bool.false_eq_true, false_iff]
    rintro ⟨marker, hmem, hvalid, -⟩
    have := (hfound marker.name).2 ⟨marker, hmem, hvalid, rfl⟩
    rw [hempty] at this
    cases this
  · simp only [Option.any_some, decide_eq_true_eq, hfound, not_exists, not_and]
    constructor
    · intro h
      obtain ⟨name, hname⟩ := List.exists_mem_of_ne_nil _ hempty
      obtain ⟨m, hm, hvalid, -⟩ := (hfound name).1 hname
      exact ⟨m, hm, hvalid, fun m hm hv he => h m hm hv he.symm⟩
    · rintro ⟨-, -, -, h⟩ m hm hv he
      exact h m hm hv he.symm

theorem tooLarge_iff : ctx.tooLarge node.kind = true ↔
    ∃ posix content limit, node = .file posix content ∧ ctx.exclude.largerThan = some limit ∧
      limit < content.length := by
  cases node with
  | dir p => simp [SourceNode.kind, SourceCtx.tooLarge]
  | symlink p t => simp [SourceNode.kind, SourceCtx.tooLarge]
  | file p c =>
    simp only [SourceNode.kind, SourceCtx.tooLarge, Option.any_eq_true, SourceNode.file.injEq]
    constructor
    · rintro ⟨limit, hlimit, h⟩
      exact ⟨p, c, limit, ⟨rfl, rfl⟩, hlimit, by simpa using h⟩
    · rintro ⟨_, _, limit, ⟨rfl, rfl⟩, hlimit, h⟩
      exact ⟨limit, hlimit, by simpa using h⟩

theorem excludedByRule_concat : tree.ExcludedByRule exclude (p ++ [x]) ↔
    exclude.patterns.Selects (p ++ [x]) ∨
      (∃ posix content limit, tree.node (p ++ [x]) = some (.file posix content) ∧
        exclude.largerThan = some limit ∧ limit < content.length) ∨
      ∃ marker ∈ exclude.ifPresent, tree.validMarker p marker ∧
        ∀ m ∈ exclude.ifPresent, tree.validMarker p m → x ≠ m.name := by
  constructor
  · rintro (h | ⟨hnode, hlimit, h⟩ | ⟨hmem, h, hnot⟩)
    · exact .inl h
    · exact .inr (.inl ⟨_, _, _, hnode, hlimit, h⟩)
    · rw [List.dropLast_concat] at h
      refine .inr (.inr ⟨_, hmem, h, fun m hm hv he => hnot m hm ?_ ?_⟩)
      · rwa [List.dropLast_concat]
      · rw [List.getLast?_concat, he]
  · rintro (h | ⟨posix, content, limit, hnode, hlimit, h⟩ | ⟨marker, hmem, h, hnot⟩)
    · exact .pattern h
    · exact .large hnode hlimit h
    · refine .marker hmem (by rwa [List.dropLast_concat]) fun m hm hv he => ?_
      rw [List.dropLast_concat] at hv
      rw [List.getLast?_concat, Option.some.injEq] at he
      exact hnot m hm hv he

/-- Out of reach: below this item nothing is given, and what lies there is excluded. -/
def Shut (tree : SourceTree) (exclude : Exclusions) (given : List RelPath) (p : RelPath) : Prop :=
  Plain given p ∧ ∃ n, Nearest given n p ∧ tree.Blocked exclude n p

/-- What leads to an item is a directory. -/
theorem dir_of_below (hq : (tree.node q).isSome) (h : Below p q) :
    ∃ posix, tree.node p = some (.dir posix) := by
  obtain ⟨⟨r, rfl⟩, hne⟩ := h
  have hr : r ≠ [] := fun hr => hne (by simp [hr])
  clear hne
  induction r using List.reverseRecOn with
  | nil => exact absurd rfl hr
  | append_singleton r y ih =>
    rw [← List.append_assoc] at hq
    obtain ⟨posix, hdir⟩ := tree.parent_dir _ _ hq
    rcases eq_or_ne r [] with rfl | hr'
    · exact ⟨posix, by simpa using hdir⟩
    · exact ih (by simp [hdir]) hr'

/-- An item that is left out and to which nothing given leads is not selected, and neither is
anything below it. -/
theorem shut_of_barred (hn : Nearest given n p) (hp : Plain given p)
    (hb : tree.Barred exclude n p) : ¬tree.Selected exclude given p ∧ tree.Shut exclude given p :=
  ⟨by rw [selected_iff hn]; push Not; exact ⟨hp, hb⟩, hp, n, hn, .inl hb⟩

/-- What the walk makes of an item: one that it leaves out is not selected and shut; one that it
keeps is selected, and if it is a directory, its content is shut or visited as it should be. -/
def ItemSpec (tree : SourceTree) (exclude : Exclusions) (given : List RelPath) (p : RelPath)
    (node : SourceNode) : Option (SourceNode × Visit) → Prop
  | none => ¬tree.Selected exclude given p ∧ tree.Shut exclude given p
  | some (node', child) => node' = node ∧ tree.Selected exclude given p ∧
      ∀ posix, node = .dir posix → match child.enter (some posix) with
        | none => tree.Shut exclude given p
        | some inside => tree.Inside exclude given p inside

/-- The visit of an item that is admitted. `out` says that the item, or what lies in its directory,
is excluded. -/
structure ItemVisit (exclude : Exclusions) (given : List RelPath) (p : RelPath)
    (bound : Option ℕ) (out : Prop) (child : Visit) : Prop where
  filter : child.filter = exclude.patterns.walk exclude.patterns.start p
  devBound : child.devBound = bound
  named : child.named = true ↔ p ∈ given
  toward : child.towardNamed = true ↔ p ∉ given ∧ ∃ q ∈ given, Below p q
  passThrough : child.passThrough = true ↔ p ∉ given ∧ out
  not_out : Plain given p → ¬out

/-- Whether an item is admitted, and with which visit. -/
theorem admitted_spec (hw : WalkOf tree exclude given a ctx)
    (hin : Inside tree exclude given (a ++ d) visit) (hn : Nearest given n (a ++ d))
    (hnode : tree.node (a ++ d ++ [x]) = some node) {out : Prop}
    (hout : out ↔ tree.Blocked exclude n (a ++ d) ∨ tree.ExcludedByRule exclude (a ++ d ++ [x])) :
    match ctx.admitted ((tree.below a).markers ctx.exclude d visit) visit
      (d ++ [x]) ⟨x, node.kind⟩ with
    | none => Plain given (a ++ d ++ [x]) ∧ out
    | some child => ItemVisit exclude given (a ++ d ++ [x]) visit.devBound out child := by
  have hnamed : d ++ [x] ∈ ctx.named.paths ↔ a ++ d ++ [x] ∈ given := by
    rw [hw.mem_paths (by simp), List.append_assoc]
  have htoward : d ++ [x] ∈ ctx.named.toward ↔ ∃ q ∈ given, Below (a ++ d ++ [x]) q := by
    rw [hw.mem_toward (by simp), List.append_assoc]
  have hfilter : ctx.exclude.patterns.descend visit.filter x =
      exclude.patterns.walk exclude.patterns.start (a ++ d ++ [x]) := by
    rw [PathFilter.walk_append_singleton, hw.exclude, hin.filter]
  -- below a blocked directory everything is out that is not named
  have hpass : visit.passThrough = true ↔ tree.Blocked exclude n (a ++ d) := by
    obtain ⟨n', hn', -, hpass⟩ := hin.nearest
    rwa [hn.unique hn']
  -- the three rules of `admitted`: a pattern, the size limit, a marker beside the entry
  have hrule : (visit.passThrough || ((ctx.exclude.patterns.descend visit.filter x).isMatch ||
      ctx.tooLarge node.kind || ((tree.below a).markers ctx.exclude d visit).any
        fun names => decide (x ∉ names))) = true ↔ out := by
    rw [hout, excludedByRule_concat, hnode, ← hpass]
    cases hp : visit.passThrough with
    | true => simp
    | false =>
      rw [Bool.false_or, Bool.or_eq_true, Bool.or_eq_true, hfilter, PathFilter.isMatch_walk,
        tooLarge_iff, besideMarker_iff hp, hw.exclude]
      simp [validMarker_below, or_assoc]
  rw [admitted_eq]
  dsimp only
  rw [hfilter] at hrule ⊢
  generalize (visit.passThrough || (_ : Bool)) = o at hrule ⊢
  split_ifs with h
  · simp only [Bool.and_eq_true, Bool.not_eq_true', decide_eq_false_iff_not, Bool.and_eq_false_iff,
      Bool.not_eq_false', decide_eq_true_eq, hrule, hnamed, htoward] at h
    obtain ⟨⟨ho, h1⟩, h2⟩ := h
    exact ⟨⟨h1, fun q hq hb => h2.elim h1 fun h2 => h2 ⟨q, hq, hb⟩⟩, ho⟩
  · refine ⟨rfl, rfl, ?_, ?_, ?_, fun hplain ho => h ?_⟩
    · simp [hnamed]
    · simp [hnamed, htoward]
    · simp [hnamed, hrule]
    · simp only [Bool.and_eq_true, Bool.not_eq_true', decide_eq_false_iff_not,
        Bool.and_eq_false_iff, Bool.not_eq_false', decide_eq_true_eq, hrule, hnamed, htoward]
      exact ⟨⟨ho, hplain.1⟩, .inr fun ⟨q, hq, hb⟩ => hplain.2 q hq hb⟩

/-- An item on another device than the one its visit is bound to. -/
theorem otherFs_iff {out : Prop} {posix : PosixMeta}
    (hc : ItemVisit exclude given p (if exclude.oneFileSystem then tree.dev n else none) out child)
    (hn : (tree.node n).isSome) (hdev : tree.dev p = some posix.dev) :
    child.otherFs (some posix) = true ↔
      exclude.oneFileSystem = true ∧ tree.dev p ≠ tree.dev n ∧ p ∉ given := by
  obtain ⟨m, hm⟩ := Option.isSome_iff_exists.1 hn
  have hdevn : tree.dev n = some m.posix.dev := by rw [dev, hm]; rfl
  simp only [Visit.otherFs, hc.devBound, hdev, hdevn]
  by_cases hone : exclude.oneFileSystem = true
  · rw [if_pos hone]
    have hnamed : child.named = false ↔ p ∉ given := by rw [← hc.named]; simp
    simp [hone, hnamed]
  · simp [hone]

/-- The content of a directory that the walk keeps: it is shut, or its visit stands for it. -/
theorem enter_spec {posix : PosixMeta} (hin : Nearest given n p) (hn : (tree.node n).isSome)
    (hnode : tree.node (p ++ [x]) = some (.dir posix)) {out : Prop}
    (hout : out ↔ tree.Blocked exclude n p ∨ tree.ExcludedByRule exclude (p ++ [x]))
    (hc : ItemVisit exclude given (p ++ [x])
      (if exclude.oneFileSystem then tree.dev n else none) out child) :
    match child.enter (some posix) with
    | none => tree.Shut exclude given (p ++ [x])
    | some inside => tree.Inside exclude given (p ++ [x]) inside := by
  have hdev : tree.dev (p ++ [x]) = some posix.dev := by rw [dev, hnode]; rfl
  have hother := otherFs_iff hc hn hdev
  -- a directory that is not given passes on what its elements say
  have hblocked : tree.Blocked exclude n (p ++ [x]) ↔
      out ∨ (exclude.oneFileSystem = true ∧ tree.dev (p ++ [x]) ≠ tree.dev n) := by
    rw [blocked_concat hin.above, barred_concat hin.above, hout]
    simp [hnode, or_assoc]
  unfold Visit.enter
  split_ifs with h
  · simp only [Bool.and_eq_true, Bool.not_eq_true', ← Bool.not_eq_true, hother, hc.toward] at h
    obtain ⟨⟨hone, hne, hgiven⟩, htoward⟩ := h
    refine ⟨⟨hgiven, fun q hq hb => htoward ⟨hgiven, q, hq, hb⟩⟩, n, hin.child hgiven, ?_⟩
    exact hblocked.2 (.inr ⟨hone, hne⟩)
  · refine ⟨hc.filter, ?_⟩
    have hpass : (child.inside (some posix)).passThrough = true ↔
        (p ++ [x] ∉ given ∧ out) ∨ (exclude.oneFileSystem = true ∧
          tree.dev (p ++ [x]) ≠ tree.dev n ∧ p ++ [x] ∉ given) := by
      change (child.passThrough || child.otherFs (some posix)) = true ↔ _
      rw [Bool.or_eq_true, hc.passThrough, hother]
    by_cases hgiven : p ++ [x] ∈ given
    · refine ⟨p ++ [x], .self hgiven, ?_, ?_⟩
      · obtain ⟨m, hm⟩ := Option.isSome_iff_exists.1 hn
        have hdevn : tree.dev n = some m.posix.dev := by rw [dev, hm]; rfl
        unfold Visit.inside
        rw [hc.named.2 hgiven, hc.devBound, hdevn, hdev]
        by_cases hone : exclude.oneFileSystem = true <;> simp [hone]
      · rw [hpass]
        have : ¬tree.Blocked exclude (p ++ [x]) (p ++ [x]) := not_blocked_self
        simp [hgiven, this]
    · refine ⟨n, hin.child hgiven, ?_, ?_⟩
      · have hnamed : child.named = false := by rw [← Bool.not_eq_true, hc.named]; exact hgiven
        rw [← hc.devBound]
        unfold Visit.inside
        rw [hnamed]
      · rw [hpass, hblocked]
        simp [hgiven]

/-- **One item.** -/
theorem kept_spec (hw : WalkOf tree exclude given a ctx)
    (hin : Inside tree exclude given (a ++ d) visit) {deeper : Bool}
    (hnode : tree.node (a ++ d ++ [x]) = some node) (hdeep : node.isDir → deeper = true) :
    tree.ItemSpec exclude given (a ++ d ++ [x]) node
      ((tree.below a).kept ctx deeper d visit x) := by
  obtain ⟨n, hn, hbound, hpass⟩ := hin.nearest
  have hdev : tree.dev (a ++ d ++ [x]) = some node.posix.dev := by rw [dev, hnode]; rfl
  have hnode' : (tree.below a).node (d ++ [x]) = some node := by
    rw [← hnode, below, List.append_assoc]
  have hadmitted := admitted_spec hw hin hn hnode Iff.rfl
  unfold kept
  rw [hnode', Option.bind_eq_bind, Option.bind_some]
  cases hc : ctx.admitted ((tree.below a).markers ctx.exclude d visit) visit (d ++ [x])
      ⟨x, node.kind⟩ with
  | none =>
    rw [hc] at hadmitted
    obtain ⟨hplain, hout⟩ := hadmitted
    have hbarred : tree.Barred exclude n (a ++ d ++ [x]) :=
      (barred_concat hn.above).2 (hout.imp_right .inl)
    exact shut_of_barred (hn.child hplain.1) hplain hbarred
  | some child =>
    rw [hc] at hadmitted
    have hn' := hw.present n hn.mem
    rw [hbound] at hadmitted
    have hother : ∀ posix : PosixMeta, tree.dev (a ++ d ++ [x]) = some posix.dev →
        (child.otherFs (some posix) = true ↔ exclude.oneFileSystem = true ∧
          tree.dev (a ++ d ++ [x]) ≠ tree.dev n ∧ a ++ d ++ [x] ∉ given) :=
      fun posix => otherFs_iff hadmitted hn'
    -- an admitted item is excluded by its device, or not at all
    have hselected : (∀ posix content, node = .file posix content →
        child.otherFs (some posix) = false) → tree.Selected exclude given (a ++ d ++ [x]) := by
      intro hfile
      by_cases hgiven : a ++ d ++ [x] ∈ given
      · exact .inl hgiven
      rw [selected_iff (hn.child hgiven), ← imp_iff_not_or]
      intro hplain hbarred
      rcases (barred_concat hn.above).1 hbarred with h | h | ⟨posix, content, hone, hfile', h⟩
      · exact hadmitted.not_out hplain (.inl h)
      · exact hadmitted.not_out hplain (.inr h)
      · obtain rfl := Option.some.inj (hnode.symm.trans hfile')
        have := (hother posix hdev).2 ⟨hone, h, hgiven⟩
        rw [hfile posix content rfl] at this
        cases this
    cases node with
    | symlink p t => exact ⟨rfl, hselected (by simp), by simp⟩
    | dir p =>
      rw [Option.bind_eq_bind, Option.bind_some, hdeep rfl, if_pos rfl]
      refine ⟨rfl, hselected (by simp), fun posix hp => ?_⟩
      cases hp
      exact enter_spec hn hn' hnode Iff.rfl hadmitted
    | file p c =>
      rw [Option.bind_eq_bind, Option.bind_some]
      dsimp only
      split_ifs with hfs
      · obtain ⟨hone, hne, hgiven⟩ := (hother p hdev).1 hfs
        have hplain : Plain given (a ++ d ++ [x]) := by
          refine ⟨hgiven, fun q hq hb => ?_⟩
          obtain ⟨posix, hdir⟩ := dir_of_below (hw.present q hq) hb
          rw [hnode] at hdir
          cases hdir
        exact shut_of_barred (hn.child hgiven) hplain
          ((barred_concat hn.above).2 (.inr (.inr ⟨p, c, hone, hnode, hne⟩)))
      · refine ⟨rfl, hselected fun posix content hf => ?_, by simp⟩
        cases hf
        simpa using hfs

variable {R : TreeId → Tree → Prop} {fileOk : RelPath → FileContent → Prop} {id : TreeId}

/-- **The recorded items.** Below the directory that is visited, the trees contain exactly the items
that are selected. -/
theorem contains_iff (hR : ∀ id t t', R id t → R id t' → t = t')
    (hw : WalkOf tree exclude given a ctx)
    (hdepth : ∀ p posix, tree.node (a ++ p) = some (.dir posix) → p.length < maxTreeDepth) :
    ∀ (p : RelPath) (levels : ℕ) (d : RelPath) (visit : Visit) (id : TreeId),
      Inside tree exclude given (a ++ d) visit →
      (tree.below a).Holds R fileOk ctx levels d visit id →
      levels + d.length + 1 = maxTreeDepth → p ≠ [] →
        ((∃ e, Contains R id p e) ↔
          (tree.node (a ++ d ++ p)).isSome ∧ tree.Selected exclude given (a ++ d ++ p)) := by
  intro p
  induction p with
  | nil => exact fun _ _ _ _ _ _ _ h => absurd rfl h
  | cons x p ih =>
    intro levels d visit id hin hholds hlevels _
    obtain ⟨es, hwritten, hes, hkept⟩ := hholds.entries
    have hc := hwritten.chain
    have hleft : (∃ e, Contains R id (x :: p) e) ↔
        ∃ e₀ ∈ es, e₀.name = x ∧ (p = [] ∨ e₀.kind = .dir ∧ ∃ e, Contains R e₀.subtree p e) := by
      rcases eq_or_ne p [] with rfl | hp
      · simp [contains_singleton_iff hR hc]
      · simp only [contains_cons_iff hR hc hp, hp, false_or]
        exact ⟨fun ⟨e, e₀, h₀, hx, hkind, h⟩ => ⟨e₀, h₀, hx, hkind, e, h⟩,
          fun ⟨e₀, h₀, hx, hkind, e, h⟩ => ⟨e, e₀, h₀, hx, hkind, h⟩⟩
    have hpath : a ++ d ++ x :: p = a ++ d ++ [x] ++ p := by simp
    rw [hleft, hpath]
    -- what lies below an item lies in a directory
    have hdirOf : p ≠ [] → (tree.node (a ++ d ++ [x] ++ p)).isSome →
        ∃ posix, tree.node (a ++ d ++ [x]) = some (.dir posix) := fun hp hsome =>
      dir_of_below hsome (below_append hp)
    cases hnode : tree.node (a ++ d ++ [x]) with
    | none =>
      refine iff_of_false ?_ ?_
      · rintro ⟨e₀, h₀, rfl, -⟩
        obtain ⟨node, child, hk, -⟩ := hes e₀ h₀
        have hnone : (tree.below a).node (d ++ [e₀.name]) = none := by
          rw [← hnode, below, List.append_assoc]
        simp [kept, hnone] at hk
      · rintro ⟨hsome, -⟩
        rcases eq_or_ne p [] with rfl | hp
        · rw [List.append_nil, hnode] at hsome
          cases hsome
        · obtain ⟨posix, hdir⟩ := hdirOf hp hsome
          rw [hnode] at hdir
          cases hdir
    | some node =>
    have hdeep : node.isDir → decide (0 < levels) = true := fun hdir => by
      cases node with
      | dir posix =>
        rw [List.append_assoc] at hnode
        have := hdepth _ _ hnode
        rw [List.length_append, List.length_singleton] at this
        exact decide_eq_true (by omega)
      | _ => cases hdir
    have hspec := kept_spec hw hin hnode hdeep
    cases hk : (tree.below a).kept ctx (decide (0 < levels)) d visit x with
    | none =>
      rw [hk] at hspec
      obtain ⟨hnot, hplain, n, hn, hb⟩ := hspec
      refine iff_of_false ?_ fun h => ?_
      · rintro ⟨e₀, h₀, rfl, -⟩
        obtain ⟨node, child, hk', -⟩ := hes e₀ h₀
        rw [hk] at hk'
        cases hk'
      · rcases eq_or_ne p [] with rfl | hp
        · rw [List.append_nil] at h
          exact hnot h.2
        · exact not_selected_below hn hplain hb (below_append hp) h.2
    | some r =>
      obtain ⟨node', child⟩ := r
      rw [hk] at hspec
      obtain ⟨rfl, hselected, hdir⟩ := hspec
      rcases eq_or_ne p [] with rfl | hp
      · obtain ⟨e₀, h₀, hx, -⟩ := hkept x _ child hk
        rw [List.append_nil]
        exact iff_of_true ⟨e₀, h₀, hx, .inl rfl⟩ ⟨by rw [hnode]; rfl, hselected⟩
      -- every entry of the name is that of the item
      have hentry : ∀ e₀ ∈ es, e₀.name = x → (tree.below a).EntryHolds R fileOk
          ((tree.below a).subHolds R fileOk ctx levels) (d ++ [x]) x child e₀ node' := by
        rintro e₀ h₀ rfl
        obtain ⟨node'', child', hk', h⟩ := hes e₀ h₀
        rw [hk] at hk'
        cases hk'
        exact h
      cases node' with
      | dir posix =>
        have hsub := hdir posix rfl
        cases hv : child.enter (some posix) with
        | none =>
          rw [hv] at hsub
          obtain ⟨hplain, n, hn, hb⟩ := hsub
          refine iff_of_false ?_ fun h => not_selected_below hn hplain hb (below_append hp) h.2
          rintro ⟨e₀, h₀, hx, hp' | ⟨-, e, h⟩⟩
          · exact hp hp'
          · obtain ⟨subtree, rfl, hempty⟩ := hentry e₀ h₀ hx
            rw [hv] at hempty
            exact not_contains_nil hR hempty.chain h
        | some inside =>
          rw [hv] at hsub
          obtain ⟨levels, rfl⟩ := Nat.exists_eq_succ_of_ne_zero
            (of_decide_eq_true (hdeep rfl)).ne'
          have hrec : ∀ e₀ ∈ es, e₀.name = x → ((∃ e, Contains R e₀.subtree p e) ↔
              (tree.node (a ++ d ++ [x] ++ p)).isSome ∧
                tree.Selected exclude given (a ++ d ++ [x] ++ p)) := by
            intro e₀ h₀ hx
            obtain ⟨subtree, rfl, hbelow⟩ := hentry e₀ h₀ hx
            rw [hv] at hbelow
            have hlevels' : levels + (d ++ [x]).length + 1 = maxTreeDepth := by
              rw [List.length_append, List.length_singleton]; omega
            have := ih levels (d ++ [x]) inside subtree (by rwa [← List.append_assoc]) hbelow
              hlevels' hp
            rwa [← List.append_assoc] at this
          constructor
          · rintro ⟨e₀, h₀, hx, hp' | ⟨-, h⟩⟩
            · exact absurd hp' hp
            · exact (hrec e₀ h₀ hx).1 h
          · intro h
            obtain ⟨e₀, h₀, hx, hholds⟩ := hkept x _ child hk
            exact ⟨e₀, h₀, hx, .inr ⟨hholds.kind.2 rfl, (hrec e₀ h₀ hx).2 h⟩⟩
      | _ =>
        refine iff_of_false ?_ fun h => ?_
        · rintro ⟨e₀, h₀, hx, hp' | ⟨hkind, -⟩⟩
          · exact hp hp'
          · cases (hentry e₀ h₀ hx).kind.1 hkind
        · obtain ⟨posix, hdir⟩ := hdirOf hp h.1
          rw [hnode] at hdir
          cases hdir

end Walk

end SourceTree
end Kist
