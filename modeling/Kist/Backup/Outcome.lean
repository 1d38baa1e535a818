import Kist.Backup.PrepareSpec
import Kist.Ideal

/-!
# What a backup selects

The snapshot of a backup of local sources that do not change contains exactly the items that are
selected, and a directory that is kept only on the way to a source contains nothing but what leads
there.
-/

namespace Kist

open Checked (bind_eq_ok)

variable {tree : SourceTree} {exclude : Exclusions} {given : List RelPath} {n p q : RelPath}

namespace SourceTree

/-- What is selected below an item that is excluded leads to a given source, or lies at or below
one. -/
theorem leads_of_selected (hn : Nearest given n p) (hb : tree.Barred exclude n p) (hpq : Below p q)
    (hq : tree.Selected exclude given q) (hp : p ∉ given) :
    ∃ g ∈ given, Below p g ∧ (q <+: g ∨ g <+: q) := by
  rcases hq with hq | ⟨g, hg, hqg⟩ | ⟨m, hm, hfree⟩
  · exact ⟨q, hq, hpq, .inl List.prefix_rfl⟩
  · exact ⟨g, hg, hpq.trans hqg.1, .inl hqg.1⟩
  · rcases List.prefix_or_prefix_of_prefix hm.above hpq.1 with hmp | hpm
    · obtain ⟨e, hne, hep, he⟩ := hb
      have hmn : m = n := (hn.last m hm.mem hmp).eq_of_length_le
        (hm.last n hn.mem (hn.above.trans hpq.1)).length_le
      rw [hmn] at hfree
      exact absurd he (hfree e hne (hep.trans hpq.1))
    · have hne : p ≠ m := fun h => hp (h ▸ hm.mem)
      exact ⟨m, hm.mem, ⟨hpm, hne⟩, .inr hm.above⟩

/-- A directory that is kept for nothing but what is given below it. -/
def OnlyAncestor (tree : SourceTree) (exclude : Exclusions) (given : List RelPath) (p : RelPath) :
    Prop :=
  p ∉ given ∧ (∃ g ∈ given, Below p g) ∧ ∃ n, Nearest given n p ∧ tree.Barred exclude n p

end SourceTree

/-- The visit in which the walk of a source starts stands for the source. -/
theorem inside_rootVisit {a : RelPath} (ha : a ∈ given) :
    SourceTree.Inside tree exclude given a (tree.rootVisit exclude a) := by
  refine ⟨rfl, a, .self ha, rfl, ?_⟩
  have : ¬tree.Blocked exclude a a := SourceTree.not_blocked_self
  simp [SourceTree.rootVisit, Visit.root, this]

/-- What the caller gave, resolved. -/
theorem mem_canonicalPaths {fs : LocalFs} : ∀ {paths : List Bytes} {given : List RelPath},
    fs.canonicalPaths paths = .ok given → ∀ a ∈ given, ∃ path ∈ paths, fs.canonicalize path = .ok a
  | [], _, h, a, ha => by cases h; cases ha
  | path :: paths, given, h, a, ha => by
    unfold LocalFs.canonicalPaths at h
    split at h
    · cases h
    · next abs habs =>
      obtain ⟨rest, hrest, h⟩ := bind_eq_ok.1 h
      cases h
      rcases List.mem_cons.1 ha with rfl | ha
      · exact ⟨path, List.mem_cons_self, habs⟩
      · obtain ⟨path', hmem, hc⟩ := mem_canonicalPaths hrest a ha
        exact ⟨path', List.mem_cons_of_mem _ hmem, hc⟩

/-- The components of the path of an item are names. -/
theorem SourceTree.clean_of_node (tree : SourceTree) {a : RelPath} (ha : (tree.node a).isSome) :
    ∀ c ∈ a, Entry.cleanName c := by
  induction a using List.reverseRecOn with
  | nil => exact List.forall_mem_nil _
  | append_singleton a x ih =>
    obtain ⟨posix, hdir⟩ := tree.parent_dir a x ha
    intro c hc
    rcases List.mem_append.1 hc with hc | hc
    · exact ih (by rw [hdir]; rfl) c hc
    · rw [List.mem_singleton.1 hc]
      exact tree.clean a x ha

/-- Nothing is asked of the files. -/
theorem walkRule_trivial (tree : SourceTree) :
    Backup.WalkRule tree (fun _ => True) (fun _ _ => True) fun _ _ => True :=
  ⟨fun _ _ _ _ _ => trivial, fun _ _ _ _ _ => trivial, fun _ _ _ _ _ _ _ _ =>
    ⟨trivial, fun _ _ => trivial⟩⟩

/-- **Selection by a backup.** The snapshot has a root for every source that lies below no other
one. Below a source that is a directory it contains exactly the items that are selected, and a
directory that is kept only on the way to a given source contains nothing but what leads there. -/
theorem backup_selects {repo repo' : Repository} {opts : BackupOptions} {nonce : ℕ}
    {started now commitNow : Time} {canonicalize : Bytes → Except String RelPath}
    {paths : List Bytes} {key : SnapshotKey} (hinj : Function.Injective repo.keys.treeId)
    (hsource : opts.source = .localPaths (tree.localFs canonicalize) paths)
    (hcanon : ∀ path a, canonicalize path = .ok a → (tree.node a).isSome)
    (hgiven : (tree.localFs canonicalize).canonicalPaths paths = .ok given)
    (hdepth : ∀ a, IsRoot given a → ∀ p posix, tree.node (a ++ p) = some (.dir posix) →
      p.length < maxTreeDepth)
    (h : repo.backup opts nonce started now commitNow = (.ok key, repo')) :
    ∃ snap, repo'.readSnapshot key = .ok snap ∧
      (∀ a, IsRoot given a → ∃ root ∈ snap.roots, root.path = pathBytes a) ∧
      ∀ root ∈ snap.roots, ∃ a, IsRoot given a ∧ root.path = pathBytes a ∧
        ((∃ posix, tree.node a = some (.dir posix)) →
          (∀ p, p ≠ [] → ((∃ e, Contains repo'.HasTree root.tree p e) ↔
            (tree.node (a ++ p)).isSome ∧ tree.Selected opts.exclude given (a ++ p))) ∧
          ∀ d p e, tree.OnlyAncestor opts.exclude given (a ++ d) → p ≠ [] →
            Contains repo'.HasTree root.tree (d ++ p) e →
              ∃ g ∈ given, Below (a ++ d) g ∧ (a ++ (d ++ p) <+: g ∨ g <+: a ++ (d ++ p))) := by
  unfold Repository.backup at h
  split at h
  · cases h
  next prep hp =>
  obtain ⟨-, t, snapshots, replicas, hread, rfl⟩ := commitAt_ok h
  obtain ⟨hprep⟩ := backupPrepare_ok hp
  have hpresent : ∀ a ∈ given, (tree.node a).isSome := fun a ha => by
    obtain ⟨path, -, hc⟩ := mem_canonicalPaths hgiven a ha
    exact hcanon path a hc
  have hclean : ∀ a ∈ given, ∀ c ∈ a, Entry.cleanName c := fun a ha =>
    tree.clean_of_node (hpresent a ha)
  -- the walk rule with nothing to keep: only which entries stand where is asked for here
  obtain ⟨-, hroots⟩ := hprep.holds hsource hgiven hclean (walkRule_trivial tree) hinj trivial
    fun _ _ _ _ => ⟨fun _ _ _ => trivial, fun _ _ _ _ => trivial⟩
  have hplanned := planned_planSources hclean
  have hR : ∀ id t t', prep.repo.HasTree id t → prep.repo.HasTree id t' → t = t' :=
    fun _ _ _ => Repository.HasTree.unique
  refine ⟨_, hread, fun a ha => ?_, fun root hroot => ?_⟩
  · obtain ⟨k, hk, rfl⟩ := hplanned.exists_of_root a ha
    obtain ⟨root, hroot, hpath, -⟩ := Related.exists_right hroots k hk
    exact ⟨root, hroot, hpath⟩
  · obtain ⟨k, hk, hpath, hholds⟩ := Related.exists_left hroots root hroot
    have ha := hplanned.root k hk
    refine ⟨k.1, ha, hpath, fun ⟨posix, hdir⟩ => ?_⟩
    -- a root that is a directory was walked; one that is a file has no paths below it
    rw [SourceTree.RootHolds, hdir] at hholds
    dsimp only at hholds
    have hw : SourceTree.WalkOf tree opts.exclude given k.1
        ⟨(tree.below k.1).source, .new k.2, opts.exclude⟩ :=
      ⟨ha.mem, ⟨k.2, rfl, hplanned.named k hk⟩, rfl, hpresent⟩
    have hiff : ∀ p, p ≠ [] → ((∃ e, Contains _ root.tree p e) ↔
        (tree.node (k.1 ++ p)).isSome ∧ tree.Selected opts.exclude given (k.1 ++ p)) :=
          fun p hp => by
      have := SourceTree.contains_iff hR hw
        (hdepth k.1 ha) p (maxTreeDepth - 1) [] _ root.tree
        (by rw [List.append_nil]; exact inside_rootVisit ha.mem) hholds rfl hp
      rwa [List.append_nil] at this
    refine ⟨hiff, fun d p e ⟨hnot, hlead, n, hn, hb⟩ hp he => ?_⟩
    have hsel := ((hiff (d ++ p) (by simp [hp])).1 ⟨e, he⟩).2
    rw [← List.append_assoc] at hsel ⊢
    exact SourceTree.leads_of_selected hn hb (below_append hp) hsel hnot

/-! ### A small source -/

/-- A directory `r` that holds two symlinks, `k` and `x`. -/
def twoLinks : SourceTree :=
  .ofItems
    [([], .dir ⟨0o40755, 0, 0, 5, 5, 1, 1, 3⟩),
      ([[114]], .dir ⟨0o40755, 0, 0, 5, 5, 2, 1, 2⟩),
      ([[114], [107]], .symlink ⟨0o120777, 0, 0, 5, 5, 3, 1, 1⟩ [97]),
      ([[114], [120]], .symlink ⟨0o120777, 0, 0, 5, 5, 4, 1, 1⟩ [97])]
    ⟨by decide, by decide, by decide, by simp⟩

/-- The source `r` without what is called `x`. -/
def twoLinksOptions : BackupOptions where
  source := .localPaths (twoLinks.localFs fun _ => .ok [[114]]) [[114]]
  clientId := 1
  hostname := "host"
  username := "user"
  gcGrace := 10 ^ 15
  parity := 0
  exclude := ⟨⟨[⟨"x", [.anyDepth, .literal [120]], false, false⟩], ⟨fun c => [c], fun c => [c]⟩⟩,
    [], none,
    false⟩

/-- A repository without objects, in which no two names collide. -/
def Repository.emptyIdeal : Repository :=
  ⟨.ideal, ⟨.default, 1024, 0⟩, ⟨∅, ∅, ∅, ∅, ∅, ∅, ∅, ∅⟩⟩

/-- Of the two links the one that is called `x` is excluded. -/
theorem selected_twoLinks :
    twoLinks.Selected twoLinksOptions.exclude [[[114]]] [[114], [107]] ∧
      ¬twoLinks.Selected twoLinksOptions.exclude [[[114]]] [[114], [120]] := by
  have hmatch : ∀ x, twoLinksOptions.exclude.patterns.Selects ([[114]] ++ [x]) ↔
      (twoLinksOptions.exclude.patterns.walk twoLinksOptions.exclude.patterns.start
        ([[114]] ++ [x])).isMatch = true := fun x => PathFilter.isMatch_walk.symm
  constructor
  · refine .inr (.inr ⟨[[114]], ⟨by decide, by decide, by simp⟩, fun e hbelow hpre => ?_⟩)
    have hinits : ∀ e ∈ [[114], [107]].inits, Below [[114]] e → e = [[114]] ++ [[107]] := by decide
    obtain rfl := hinits e ((List.mem_inits _ _).2 hpre) hbelow
    rintro (⟨⟨h⟩ | ⟨-, hlimit, -⟩ | ⟨hmem, -, -⟩⟩ | ⟨hone, -, -⟩ | ⟨hone, -, -, -⟩)
    · exact absurd ((hmatch _).1 h) (by decide)
    · cases hlimit
    · cases hmem
    · cases hone
    · cases hone
  · rintro (hgiven | ⟨q, hq, hbelow⟩ | ⟨n, hn, hnot⟩)
    · exact absurd hgiven (by decide)
    · obtain rfl := List.mem_singleton.1 hq
      exact absurd hbelow (by decide)
    · obtain rfl := List.mem_singleton.1 hn.mem
      exact hnot [[114], [120]] (by decide) List.prefix_rfl
        (.rule (.pattern ((hmatch _).2 (by decide))))

theorem backup_selects_twoLinks :
    ∃ key repo', Repository.emptyIdeal.backup twoLinksOptions 0 100 100 100 = (.ok key, repo') ∧
      ∃ snap, repo'.readSnapshot key = .ok snap ∧
        ∃ root ∈ snap.roots, root.path = pathBytes [[114]] ∧
          (∃ e, Contains repo'.HasTree root.tree [[107]] e) ∧
            ¬∃ e, Contains repo'.HasTree root.tree [[120]] e := by
  have h : Repository.emptyIdeal.backup twoLinksOptions 0 100 100 100 =
      (.ok ⟨1, 100⟩, (Repository.emptyIdeal.backup twoLinksOptions 0 100 100 100).2) :=
    Prod.ext (by decide +kernel) rfl
  have hroot : ∀ a, IsRoot [[[114]]] a → a = [[114]] := fun a ha => List.mem_singleton.1 ha.mem
  have hdepth : ∀ a p node, twoLinks.node (a ++ p) = some node → p.length < maxTreeDepth :=
    fun a p node hp => by
      have : (a ++ p).length ≤ 2 := SourceTree.length_le_of_ofItems (by decide) hp
      rw [List.length_append] at this
      unfold maxTreeDepth
      omega
  obtain ⟨snap, hread, hroots, hsel⟩ := backup_selects
    RepoKeys.treeId_ideal_injective rfl (fun path a ha => by cases ha; rfl) rfl
    (fun a _ p posix => hdepth a p _) h
  obtain ⟨root, hmem, hpath⟩ := hroots [[114]] ⟨by decide, by decide⟩
  refine ⟨_, _, h, snap, hread, root, hmem, hpath, ?_⟩
  obtain ⟨a, ha, -, hcontains⟩ := hsel root hmem
  cases hroot a ha
  have hiff := (hcontains ⟨_, rfl⟩).1
  exact ⟨(hiff [[107]] (by decide)).2 ⟨rfl, selected_twoLinks.1⟩,
    fun hx => selected_twoLinks.2 ((hiff [[120]] (by decide)).1 hx).2⟩

end Kist
