import Kist.Restore.Unmatched

/-!
# The places of the roots

Which directories of a snapshot go where below the target: a root that lies below the subtree goes
to the rest of its path, and of a root at the subtree or above it the directory that the subtree
names.

* `Repository.Brings`: the places, from the snapshot alone.
* `placeRoots_spec`: the restore walks these, save where nothing is chosen.
-/

namespace Kist

namespace Repository

variable (repo : Repository)

/-- The directory to which a path leads from one with these entries. Where several entries have one
name, a path means the first. -/
inductive DirAt : List Entry → List Bytes → List Entry → Prop
  | here (es : List Entry) : DirAt es [] es
  | deeper {es sub es' : List Entry} {e : Entry} {name : Bytes} {names : List Bytes}
    (hfind : es.find? (fun e => e.name = name) = some e) (hkind : e.kind = .dir)
    (hsub : repo.readTreeChain e.subtree = .ok sub) (h : DirAt sub names es') :
    DirAt es (name :: names) es'

/-- A root brings a directory with these entries to a place: its own, or the one above if the root
is a file, or the directory that the subtree names in it. -/
inductive Brings (roots : List Root) (subtree : List Bytes) : RelPath → List Entry → Prop
  | dir {root : Root} {rel : RelPath} {es : List Entry} (hroot : root ∈ roots)
    (hnames : locatorComponents root.path = .ok (subtree ++ rel)) (hne : rel ≠ [])
    (hes : repo.readTreeChain root.tree = .ok es)
    (hdir : isFileRoot (rel.getLastD []) es = false) : Brings roots subtree rel es
  | file {root : Root} {rel : RelPath} {es : List Entry} (hroot : root ∈ roots)
    (hnames : locatorComponents root.path = .ok (subtree ++ rel)) (hne : rel ≠ [])
    (hes : repo.readTreeChain root.tree = .ok es)
    (hfile : isFileRoot (rel.getLastD []) es = true) : Brings roots subtree rel.dropLast es
  | within {root : Root} {names rest : List Bytes} {es es' : List Entry} (hroot : root ∈ roots)
    (hnames : locatorComponents root.path = .ok names) (hsubtree : subtree = names ++ rest)
    (hes : repo.readTreeChain root.tree = .ok es) (h : repo.DirAt es rest es') :
    Brings roots subtree [] es'

/-- The entries behind the content of a place. -/
def entriesOf : RootContent → Except CoreError (List Entry)
  | .tree id => repo.readTreeChain id
  | .read entries => .ok entries

end Repository

/-- Where a root goes once its entries are known, and its position. -/
def Placement.settle (placement : Placement) (entries : List Entry) : RelPath × Pos :=
  match placement.fileRoot with
  | some (name, parent) =>
    if isFileRoot name entries then (placement.rel.dropLast, parent)
    else (placement.rel, placement.pos)
  | none => (placement.rel, placement.pos)

namespace Repository

variable {repo : Repository} {opts : RestoreOptions} {s s' : Select} {root : Root}
  {placement : Placement}
  {rel rel' : RelPath} {pos : Pos} {es es' entries : List Entry} {e : Entry} {names : List Bytes}

/-- One step along the subtree, in the entries of the directory reached. -/
theorem descendInto_cons {subtree : List Bytes} {wanted : Bytes} {rest : List Bytes}
    {unread : Option TreeId} {r : Option RootContent}
    (h : repo.descendInto subtree (wanted :: rest) entries unread = .ok r) :
    ∃ current, repo.entriesOf (unread.elim (.read entries) .tree) = .ok current ∧
      ((current.find? fun e => e.name = wanted) = none ∧ r = none ∨
        ∃ e, (current.find? fun e => e.name = wanted) = some e ∧ e.kind = .dir ∧
          repo.descendInto subtree rest current (some e.subtree) = .ok r) := by
  unfold descendInto at h
  cases unread with
  | none | some id =>
    obtain ⟨current, hcurrent, h⟩ := Checked.bind_eq_ok.1 h
    refine ⟨current, hcurrent, ?_⟩
    dsimp only at h
    cases hfind : current.find? fun e => e.name = wanted with
    | none =>
      rw [hfind] at h
      cases h
      exact .inl ⟨rfl, rfl⟩
    | some entry =>
      rw [hfind] at h
      dsimp only at h
      split_ifs at h with hbad
      · cases h
      · exact .inr ⟨entry, rfl, not_not.1 fun hk => hbad (.inl hk), h⟩

/-- The directory reached, whose entries may not be read yet. -/
theorem descendInto_spec {subtree : List Bytes} : ∀ {names : List Bytes} {entries : List Entry}
    {unread : Option TreeId} {r : Option RootContent},
    repo.descendInto subtree names entries unread = .ok r →
      (∀ content es', r = some content → repo.entriesOf content = .ok es' →
        ∃ es, repo.entriesOf (unread.elim (.read entries) .tree) = .ok es ∧
          repo.DirAt es names es') ∧
      (∀ es es', repo.entriesOf (unread.elim (.read entries) .tree) = .ok es →
        repo.DirAt es names es' → ∃ content, r = some content ∧ repo.entriesOf content = .ok es')
  | [], entries, unread, r, h => by
    cases h
    refine ⟨fun content es' hr hes => ?_, fun es es' hes hdir => ?_⟩
    · cases hr
      exact ⟨es', hes, .here es'⟩
    · cases hdir
      exact ⟨_, rfl, hes⟩
  | wanted :: rest, entries, unread, r, h => by
    obtain ⟨current, hread, ⟨hfind, rfl⟩ | ⟨entry, hfind, hkind, h⟩⟩ := descendInto_cons h
    · refine ⟨(fun content es' hr => by cases hr), fun es es' hes hdir => ?_⟩
      cases hread.symm.trans hes
      cases hdir with
      | deeper hfind' => cases hfind.symm.trans hfind'
    · obtain ⟨hsound, hcomplete⟩ := descendInto_spec h
      refine ⟨fun content es' hr hes => ?_, fun es es' hes hdir => ?_⟩
      · obtain ⟨sub, hsub, hdir⟩ := hsound content es' hr hes
        exact ⟨current, hread, .deeper hfind hkind hsub hdir⟩
      · cases hread.symm.trans hes
        cases hdir with
        | deeper hfind' _ hsub hdir =>
          cases hfind.symm.trans hfind'
          exact hcomplete _ es' hsub hdir

/-- A place opens to the same directory whatever was credited before. -/
theorem openPlacement_eq_ok {select : Select} :
    repo.openPlacement placement s = .ok (rel, pos, entries, select) ↔
      repo.entriesOf placement.content = .ok entries ∧ placement.settle entries = (rel, pos) ∧
        select = s.credit pos := by
  have hbind : repo.openPlacement placement s =
    (repo.entriesOf placement.content).bind fun entries =>
      .ok ((placement.settle entries).1, (placement.settle entries).2, entries,
        s.credit (placement.settle entries).2) := by
    unfold openPlacement entriesOf Placement.settle
    cases placement.content <;> rfl
  rw [hbind]
  cases repo.entriesOf placement.content with
  | error err => exact iff_of_false (by simp [Except.bind]) (by simp)
  | ok es =>
    constructor
    · intro h
      cases h
      exact ⟨rfl, rfl, rfl⟩
    · rintro ⟨h, hsettle, rfl⟩
      cases h
      show Except.ok _ = Except.ok _
      rw [hsettle]

theorem Brings.single {roots : List Root} {subtree : List Bytes}
    (h : repo.Brings roots subtree rel es) : ∃ root ∈ roots, repo.Brings [root] subtree rel es := by
  cases h with
  | dir hroot hnames hne hes hdir => exact ⟨_, hroot, .dir List.mem_cons_self hnames hne hes hdir⟩
  | file hroot hnames hne hes hfile =>
    exact ⟨_, hroot, .file List.mem_cons_self hnames hne hes hfile⟩
  | within hroot hnames hsub hes hd =>
    exact ⟨_, hroot, .within List.mem_cons_self hnames hsub hes hd⟩

theorem Brings.of_mem {roots : List Root} {subtree : List Bytes}
    (h : repo.Brings [root] subtree rel es) (hr : root ∈ roots) :
    repo.Brings roots subtree rel es := by
  cases h with
  | dir hroot hnames hne hes hdir =>
    exact .dir (List.mem_singleton.1 hroot ▸ hr) hnames hne hes hdir
  | file hroot hnames hne hes hfile =>
    exact .file (List.mem_singleton.1 hroot ▸ hr) hnames hne hes hfile
  | within hroot hnames hsub hes hd =>
    exact .within (List.mem_singleton.1 hroot ▸ hr) hnames hsub hes hd

/-- Two paths of which one begins with the other. -/
theorem take_eq_take_iff {xs ys : List Bytes} :
    xs.take ys.length = ys.take xs.length ↔ xs <+: ys ∨ ys <+: xs := by
  constructor
  · intro h
    rcases le_total xs.length ys.length with hle | hle
    · rw [List.take_of_length_le hle] at h
      exact .inl (h ▸ List.take_prefix _ _)
    · rw [List.take_of_length_le hle] at h
      exact .inr (h ▸ List.take_prefix _ _)
  · rintro (h | h)
    · rw [List.take_of_length_le h.length_le, List.prefix_iff_eq_take.1 h |>.symm]
    · rw [List.take_of_length_le h.length_le, ← List.prefix_iff_eq_take.1 h]

/-- The rest of the path of a root below the subtree. -/
theorem exists_rest (hshared : names.take opts.subtree.length = opts.subtree.take names.length)
    (hlt : opts.subtree.length < names.length) :
    ∃ rest, names = opts.subtree ++ rest ∧ rest ≠ [] := by
  rcases take_eq_take_iff.1 hshared with h | ⟨rest, rfl⟩
  · exact absurd h.length_le (by omega)
  · refine ⟨rest, rfl, fun hnil => ?_⟩
    rw [hnil, List.append_nil] at hlt
    exact lt_irrefl _ hlt

theorem getLastD_append {xs ys : List Bytes} (h : ys ≠ []) (d : Bytes) :
    (xs ++ ys).getLastD d = ys.getLastD d := by
  rw [List.getLastD_eq_getLast?, List.getLastD_eq_getLast?, List.getLast?_append_of_ne_nil _ h]

theorem dropLast_append_getLastD {xs : List Bytes} (h : xs ≠ []) (d : Bytes) :
    xs.dropLast ++ [xs.getLastD d] = xs := by
  rw [List.getLastD_eq_getLast?, List.getLast?_eq_some_getLast h, Option.getD_some,
    List.dropLast_append_getLast h]

/-- **Sound.** Where a root goes, the snapshot brings its directory. -/
theorem placeRoot_sound {roots : List Root} (hroot : root ∈ roots)
    (h : repo.placeRoot root opts.subtree s = .ok (.here placement))
    (hes : repo.entriesOf placement.content = .ok es) :
    repo.Brings roots opts.subtree (placement.settle es).1 es := by
  unfold placeRoot at h
  obtain ⟨names, hnames, h⟩ := Checked.bind_eq_ok.1 h
  split_ifs at h with hshared hlt
  · cases h
  · -- the root lies below the subtree and keeps the rest of its names
    obtain ⟨rest, rfl, hne⟩ := exists_rest (not_not.1 hshared) hlt
    rw [List.drop_left, getLastD_append hne] at h
    cases hparent : s.walk s.start (opts.subtree ++ rest).dropLast with
    | none => rw [hparent] at h; cases h
    | some parent =>
      rw [hparent] at h
      dsimp only at h
      cases hchild : s.child parent (rest.getLastD []) with
      | none => rw [hchild] at h; cases h
      | some pos =>
        rw [hchild] at h
        dsimp only at h
        split_ifs at h
        · cases h
          unfold Placement.settle
          dsimp only
          cases hfile : isFileRoot (rest.getLastD []) es with
          | true => exact .file hroot hnames hne hes hfile
          | false => exact .dir hroot hnames hne hes hfile
        · cases h
  · -- the subtree lies inside the root, which is entered along the names that remain
    have hsubtree : opts.subtree = names ++ opts.subtree.drop names.length := by
      rcases take_eq_take_iff.1 (not_not.1 hshared) with h | h
      · exact (List.prefix_iff_eq_append.1 h).symm
      · rw [h.eq_of_length (le_antisymm h.length_le (not_lt.1 hlt)), List.drop_length,
          List.append_nil]
    unfold placeInside at h
    obtain ⟨entries, hentries, h⟩ := Checked.bind_eq_ok.1 h
    split_ifs at h
    · cases h
    · obtain ⟨content, hinto, h⟩ := Checked.bind_eq_ok.1 h
      cases content with
      | none => cases h
      | some content =>
        dsimp only at h
        cases hwalk : s.walk s.start opts.subtree with
        | none => rw [hwalk] at h; cases h
        | some pos =>
          rw [hwalk] at h
          dsimp only at h
          split_ifs at h
          · cases h
            obtain ⟨es', hes', hdir⟩ := (descendInto_spec hinto).1 content es rfl hes
            cases hes'
            exact .within hroot hnames hsubtree hentries hdir
          · cases h

/-- A node that is chosen is at an open path down to it, and each position above it is worth
walking. -/
theorem exists_walk_of_chosen (path rest : List Bytes) (hs : s.For opts)
    (h : opts.Chosen (path ++ rest)) :
    ∃ pos, s.walk s.start path = some pos ∧ pos.At opts path ∧ Select.worthWalking pos = true := by
  obtain ⟨hsome, hnone⟩ := @Pos.At.walk opts s hs path [] s.start (Pos.at_start hs)
  rw [List.nil_append] at hsome hnone
  cases hwalk : s.walk s.start path with
  | none => exact absurd (h.open.mono (List.prefix_append _ _)) (hnone.1 hwalk)
  | some pos => exact ⟨pos, rfl, hsome pos hwalk, (hsome pos hwalk).worthWalking h.2⟩

theorem walk_concat (s : Select) (name : Bytes) : ∀ (names : List Bytes) (pos : Pos),
    s.walk pos (names ++ [name]) = (s.walk pos names).bind fun parent => s.child parent name
  | [], pos => by
    show (s.child pos name).bind some = s.child pos name
    cases s.child pos name <;> rfl
  | n :: names, pos => by
    rw [List.cons_append, Select.walk, Select.walk, Option.bind_assoc]
    exact Option.bind_congr fun pos _ => walk_concat s name names pos

/-- A root below the subtree in which something is chosen gets a place. -/
theorem placeRoot_below {root : Root} {placed : Placed} (rest : List Bytes) (hs : s.For opts)
    (hnames : locatorComponents root.path = .ok (opts.subtree ++ rel)) (hne : rel ≠ [])
    (h : repo.placeRoot root opts.subtree s = .ok placed)
    (hchosen : opts.Chosen (opts.subtree ++ rel ++ rest)) :
    ∃ pos parent, placed = .here ⟨rel, pos, some (rel.getLastD [], parent), .tree root.tree⟩ := by
  unfold placeRoot at h
  rw [hnames] at h
  obtain ⟨parent, hparent, -⟩ := exists_walk_of_chosen (opts.subtree ++ rel).dropLast
    ([(opts.subtree ++ rel).getLastD []] ++ rest) hs (by
      rwa [← List.append_assoc, dropLast_append_getLastD (by simp [hne])])
  obtain ⟨pos, hpos, -, hworth⟩ := exists_walk_of_chosen _ _ hs hchosen
  have hchild : s.child parent (rel.getLastD []) = some pos := by
    have hconcat := walk_concat s ((opts.subtree ++ rel).getLastD []) (opts.subtree ++ rel).dropLast
      s.start
    rw [dropLast_append_getLastD (by simp [hne]), hpos, hparent, getLastD_append hne] at hconcat
    exact hconcat.symm
  have hlt : opts.subtree.length < (opts.subtree ++ rel).length := by
    rw [List.length_append]
    exact Nat.lt_add_of_pos_right (List.length_pos_of_ne_nil hne)
  obtain ⟨_, h', h⟩ := Checked.bind_eq_ok.1 h
  cases h'
  rw [if_neg (not_not.2 (take_eq_take_iff.2 (.inr (List.prefix_append _ _)))), if_pos hlt, hparent,
    getLastD_append hne, List.drop_left] at h
  dsimp only at h
  rw [hchild] at h
  dsimp only at h
  rw [if_pos hworth] at h
  cases h
  exact ⟨pos, parent, rfl⟩

/-- **Complete.** A directory that a root brings has a place if something in it is chosen. -/
theorem placeRoot_complete {placed : Placed} (hs : s.For opts)
    (hb : repo.Brings [root] opts.subtree rel es) (hitem : repo.Item es rel' e)
    (hchosen : opts.Chosen (opts.subtree ++ rel ++ rel'))
    (h : repo.placeRoot root opts.subtree s = .ok placed) :
    ∃ placement, placed = .here placement ∧ repo.entriesOf placement.content = .ok es ∧
      (placement.settle es).1 = rel := by
  cases hb with
  | dir hroot hnames hne hes hdir =>
    obtain rfl := List.mem_singleton.1 hroot
    obtain ⟨pos, parent, rfl⟩ := placeRoot_below rel' hs hnames hne h hchosen
    refine ⟨_, rfl, hes, ?_⟩
    unfold Placement.settle
    dsimp only
    rw [hdir, if_neg Bool.false_ne_true]
  | @file root rel es hroot hnames hne hes hfile =>
    obtain rfl := List.mem_singleton.1 hroot
    -- the one item of the directory is the root itself
    have hrel' : rel.dropLast ++ rel' = rel := by
      unfold isFileRoot at hfile
      split at hfile
      · simp only [ne_eq, decide_not, Bool.and_eq_true, Bool.not_eq_true', decide_eq_false_iff_not,
          decide_eq_true_eq] at hfile
        obtain ⟨rfl, rfl⟩ := (item_leaf hfile.1).1 hitem
        rw [hfile.2, dropLast_append_getLastD hne]
      · cases hfile
    rw [List.append_assoc, hrel'] at hchosen
    obtain ⟨pos, parent, rfl⟩ := placeRoot_below [] hs hnames hne h
      (by rwa [List.append_nil])
    refine ⟨_, rfl, hes, ?_⟩
    unfold Placement.settle
    dsimp only
    rw [hfile, if_pos rfl]
  | @within root names rest entries es hroot hnames hsubtree hes hdir =>
    obtain rfl := List.mem_singleton.1 hroot
    rw [List.append_nil] at hchosen
    obtain ⟨pos, hpos, -, hworth⟩ := exists_walk_of_chosen _ _ hs hchosen
    unfold placeRoot at h
    obtain ⟨_, h', h⟩ := Checked.bind_eq_ok.1 h
    cases hnames.symm.trans h'
    have hle : ¬opts.subtree.length < names.length := by
      rw [hsubtree, List.length_append]
      omega
    rw [if_neg (not_not.2 (take_eq_take_iff.2 (.inl ⟨rest, hsubtree.symm⟩))), if_neg hle] at h
    unfold placeInside at h
    obtain ⟨_, h', h⟩ := Checked.bind_eq_ok.1 h
    cases hes.symm.trans h'
    split_ifs at h
    · cases h
    · obtain ⟨content, hinto, h⟩ := Checked.bind_eq_ok.1 h
      rw [hsubtree, List.drop_left] at hinto
      obtain ⟨content, rfl, hcontent⟩ := (descendInto_spec hinto).2 _ es rfl hdir
      dsimp only at h
      rw [hpos] at h
      dsimp only at h
      rw [if_pos hworth] at h
      cases h
      exact ⟨_, rfl, hcontent, rfl⟩

/-- The places of all roots, and what became of each. -/
theorem mem_placeEach {subtree : List Bytes} : ∀ {roots : List Root} {r : List Placement × Bool},
    repo.placeEach subtree s roots = .ok r → ∀ root ∈ roots, ∃ placed,
      repo.placeRoot root subtree s = .ok placed ∧
        ∀ placement, placed = .here placement → placement ∈ r.1
  | [], _, _, root, hroot => absurd hroot List.not_mem_nil
  | root :: roots, r, h, root', hroot => by
    obtain ⟨placed, hplaced, h⟩ := Checked.bind_eq_ok.1 h
    obtain ⟨⟨placements, found⟩, hrest, h⟩ := Checked.bind_eq_ok.1 h
    have hmem : (∀ placement, placed = .here placement → placement ∈ r.1) ∧
        ∀ placement ∈ placements, placement ∈ r.1 := by
      cases placed with
      | elsewhere | pruned =>
        cases h
        exact ⟨(fun _ hp => by cases hp), fun _ hp => hp⟩
      | here placement =>
        cases h
        refine ⟨fun _ hp => ?_, fun _ => List.mem_cons_of_mem _⟩
        cases hp
        exact List.mem_cons_self
    rcases List.mem_cons.1 hroot with rfl | hroot
    · exact ⟨placed, hplaced, hmem.1⟩
    · obtain ⟨placed', hplaced', hin⟩ := mem_placeEach hrest root' hroot
      exact ⟨placed', hplaced', fun placement hp => hmem.2 placement (hin placement hp)⟩

theorem exists_root_of_placeEach {subtree : List Bytes} : ∀ {roots : List Root}
    {r : List Placement × Bool}, repo.placeEach subtree s roots = .ok r →
      ∀ placement ∈ r.1, ∃ root ∈ roots, repo.placeRoot root subtree s = .ok (.here placement)
  | [], _, h, placement, hp => by
    cases h
    cases hp
  | root :: roots, r, h, placement, hp => by
    obtain ⟨placed, hplaced, h⟩ := Checked.bind_eq_ok.1 h
    obtain ⟨⟨placements, found⟩, hrest, h⟩ := Checked.bind_eq_ok.1 h
    have hlater : placement ∈ placements → ∃ root' ∈ root :: roots,
        repo.placeRoot root' subtree s = .ok (.here placement) := fun hp => by
      obtain ⟨root', hroot', h'⟩ := exists_root_of_placeEach hrest placement hp
      exact ⟨root', List.mem_cons_of_mem _ hroot', h'⟩
    cases placed with
    | elsewhere | pruned =>
      cases h
      exact hlater hp
    | here first =>
      cases h
      rcases List.mem_cons.1 hp with rfl | hp
      · exact ⟨root, List.mem_cons_self, hplaced⟩
      · exact hlater hp

/-- **The places of a restore.** Each is a directory that a root brings; and a directory that a root
brings has a place if something in it is chosen. -/
theorem placeRoots_spec {roots : List Root} {placements : List Placement} (hs : s.For opts)
    (h : repo.placeRoots roots opts.subtree s = .ok placements) :
    (∀ placement ∈ placements, ∀ es, repo.entriesOf placement.content = .ok es →
      repo.Brings roots opts.subtree (placement.settle es).1 es) ∧
    ∀ rel es rel' e, repo.Brings roots opts.subtree rel es → repo.Item es rel' e →
      opts.Chosen (opts.subtree ++ rel ++ rel') →
        ∃ placement ∈ placements, repo.entriesOf placement.content = .ok es ∧
          (placement.settle es).1 = rel := by
  obtain ⟨⟨placements', found⟩, heach, h⟩ := Checked.bind_eq_ok.1 h
  dsimp only at h
  split_ifs at h
  · cases h
  · cases h
    refine ⟨fun placement hp es hes => ?_, fun rel es rel' e hb hitem hchosen => ?_⟩
    · obtain ⟨root, hroot, hplaced⟩ := exists_root_of_placeEach heach placement hp
      exact placeRoot_sound hroot hplaced hes
    · obtain ⟨root, hroot, hb⟩ := hb.single
      obtain ⟨placed, hplaced, hin⟩ := mem_placeEach heach root hroot
      obtain ⟨placement, rfl, hes, hrel⟩ := placeRoot_complete hs hb hitem hchosen hplaced
      exact ⟨placement, hin placement rfl, hes, hrel⟩

end Repository
end Kist
