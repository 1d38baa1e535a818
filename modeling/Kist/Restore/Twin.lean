import Kist.Backup.Segments
import Kist.Restore.Outcome

/-!
# What a restore depends on

Two restores of one snapshot, from storages that may differ in everything else and with other
indexes. What is read is checked against its name, so the walks stay in step as long as neither
reports an error.

* `Twin`, `InStep`: the walks are at the same point, or one of them has failed.
* `inStep_restorePlacements`: they stay so.
* `restore_tampered`: whoever holds no keys cannot change what a restore without errors yields.
-/

namespace Kist

open Checked (Agree bind_eq_ok)

/-! ### Reading -/

section Reading

variable {repo₁ repo₂ : Repository}

theorem Repository.Trail.agree (hkeys : repo₁.keys = repo₂.keys)
    (hinj : Function.Injective repo₁.keys.treeId) {start : Option TreeId}
    {l₁ l₂ : List (TreeId × Tree)} (h₁ : Repository.Trail repo₁ start l₁)
    (h₂ : Repository.Trail repo₂ start l₂) : l₁ = l₂ := by
  induction h₁ generalizing l₂ with
  | nil =>
    cases h₂
    rfl
  | @cons id t l ht _ ih =>
    cases h₂ with
    | @cons _ t' l' ht' hrest =>
      obtain rfl : t = t' := hinj (ht.treeId_eq.trans (hkeys ▸ ht'.treeId_eq.symm))
      rw [ih hrest]

/-- The entries of a directory do not depend on the storage they are read from. -/
theorem agree_readTreeChain (hkeys : repo₁.keys = repo₂.keys)
    (hinj : Function.Injective repo₁.keys.treeId) (id : TreeId) :
    Agree (repo₁.readTreeChain id) (repo₂.readTreeChain id) := by
  intro es₁ es₂ h₁ h₂
  obtain ⟨l₁, hl₁, rfl⟩ := Repository.readTreeChain_ok_iff.1 h₁
  obtain ⟨l₂, hl₂, rfl⟩ := Repository.readTreeChain_ok_iff.1 h₂
  rw [hl₁.agree hkeys hinj hl₂]

theorem agree_openPlacement (hkeys : repo₁.keys = repo₂.keys)
    (hinj : Function.Injective repo₁.keys.treeId) (placement : Placement) (select : Select) :
    Agree (repo₁.openPlacement placement select) (repo₂.openPlacement placement select) := by
  unfold Repository.openPlacement
  cases placement.content with
  | tree id => exact (agree_readTreeChain hkeys hinj id).bind fun _ _ _ => .refl _
  | read entries => exact .refl _

theorem agree_descendInto (hkeys : repo₁.keys = repo₂.keys)
    (hinj : Function.Injective repo₁.keys.treeId) (subtree rest : List Bytes) :
    ∀ (entries : List Entry) (unread : Option TreeId),
      Agree (repo₁.descendInto subtree rest entries unread)
        (repo₂.descendInto subtree rest entries unread) := by
  induction rest with
  | nil => exact fun _ _ => .refl _
  | cons wanted rest ih =>
    have hstep : ∀ entries : List Entry, Agree
        (repo₁.descendInto subtree (wanted :: rest) entries none)
        (repo₂.descendInto subtree (wanted :: rest) entries none) := by
      intro entries
      unfold Repository.descendInto
      refine Agree.bind (.refl (.ok entries)) fun entries _ _ => ?_
      dsimp only
      cases entries.find? fun e => e.name = wanted with
      | none => exact .refl _
      | some e =>
        dsimp only
        split_ifs
        · exact .refl _
        · exact ih entries (some e.subtree)
    intro entries unread
    cases unread with
    | none => exact hstep entries
    | some id => exact (agree_readTreeChain hkeys hinj id).bind fun entries _ _ => hstep entries

theorem agree_placeInside (hkeys : repo₁.keys = repo₂.keys)
    (hinj : Function.Injective repo₁.keys.treeId) (root : Root) (names subtree : List Bytes)
    (select : Select) :
    Agree (repo₁.placeInside root names subtree select)
      (repo₂.placeInside root names subtree select) := by
  unfold Repository.placeInside
  refine (agree_readTreeChain hkeys hinj root.tree).bind fun entries _ _ => ?_
  split_ifs
  · exact .refl _
  · exact (agree_descendInto hkeys hinj subtree _ entries none).bind fun _ _ _ => .refl _

theorem agree_placeRoot (hkeys : repo₁.keys = repo₂.keys)
    (hinj : Function.Injective repo₁.keys.treeId) (root : Root) (subtree : List Bytes)
    (select : Select) :
    Agree (repo₁.placeRoot root subtree select) (repo₂.placeRoot root subtree select) := by
  unfold Repository.placeRoot
  refine Agree.bind (.refl _) fun names _ _ => ?_
  split_ifs
  · exact .refl _
  · exact .refl _
  · exact agree_placeInside hkeys hinj root names subtree select

theorem agree_placeEach (hkeys : repo₁.keys = repo₂.keys)
    (hinj : Function.Injective repo₁.keys.treeId) (subtree : List Bytes) (select : Select)
    (roots : List Root) :
    Agree (repo₁.placeEach subtree select roots) (repo₂.placeEach subtree select roots) := by
  induction roots with
  | nil => exact .refl _
  | cons root roots ih =>
    exact (agree_placeRoot hkeys hinj root subtree select).bind fun _ _ _ =>
      ih.bind fun _ _ _ => .refl _

/-- The places of the roots do not depend on the storage. -/
theorem agree_placeRoots (hkeys : repo₁.keys = repo₂.keys)
    (hinj : Function.Injective repo₁.keys.treeId) (roots : List Root) (subtree : List Bytes)
    (select : Select) :
    Agree (repo₁.placeRoots roots subtree select) (repo₂.placeRoots roots subtree select) :=
  (agree_placeEach hkeys hinj subtree select roots).bind fun _ _ _ => .refl _

end Reading

/-! ### Two walks in step -/

namespace RestoreWalk

open RestoreSetting (Broken)

/-- The walks are at the same point: they differ in their indexes alone. -/
def Twin (w₁ w₂ : RestoreWalk) : Prop := ∃ index, w₂ = { w₁ with index }

/-- Both steps went well and left the walks at the same point, or one of them failed. -/
def InStep (x₁ x₂ : Except CoreError Unit × RestoreWalk) : Prop :=
  (x₁.1 = .ok () ∧ x₂.1 = .ok () ∧ x₁.2.Twin x₂.2) ∨ Broken x₁ ∨ Broken x₂

section InStep

variable {w₁ w₂ : RestoreWalk} {x₁ x₂ : Except CoreError Unit × RestoreWalk}

theorem InStep.of_twin (hr : x₁.1 = x₂.1) (ht : x₁.2.Twin x₂.2) : InStep x₁ x₂ := by
  by_cases hok : x₁.1 = .ok ()
  · exact .inl ⟨hok, hr ▸ hok, ht⟩
  · exact .inr (.inl (.inl hok))

/-- What follows a step that went well. -/
def andThen (x : Except CoreError Unit × RestoreWalk)
    (f : RestoreWalk → Except CoreError Unit × RestoreWalk) : Except CoreError Unit × RestoreWalk :=
  match x with
  | (.error e, w) => (.error e, w)
  | (.ok (), w) => f w

theorem broken_andThen {f : RestoreWalk → Except CoreError Unit × RestoreWalk}
    (hf : ∀ w, Noted w (f w).2) (h : Broken x₁) : Broken (andThen x₁ f) := by
  rcases x₁ with ⟨e | u, w⟩
  · exact .inl nofun
  · exact .inr ((hf w).ne_nil (h.resolve_left fun h => h rfl))

theorem broken_of_error {f : RestoreWalk → Except CoreError Unit × RestoreWalk}
    (hf : ∀ w, (f w).1 ≠ .ok ()) : Broken (andThen x₁ f) := by
  rcases x₁ with ⟨e | u, w⟩
  · exact .inl nofun
  · exact .inl (hf w)

theorem noted_andThen {w : RestoreWalk} {f : RestoreWalk → Except CoreError Unit × RestoreWalk}
    (hf : ∀ w, Noted w (f w).2) (h : w.Noted x₁.2) : w.Noted (andThen x₁ f).2 := by
  rcases x₁ with ⟨e | u, w₁⟩
  · exact h
  · exact h.trans (hf w₁)

theorem InStep.andThen {f₁ f₂ : RestoreWalk → Except CoreError Unit × RestoreWalk}
    (h : InStep x₁ x₂) (hf : ∀ w₁ w₂, Twin w₁ w₂ → InStep (f₁ w₁) (f₂ w₂))
    (hn₁ : ∀ w, Noted w (f₁ w).2) (hn₂ : ∀ w, Noted w (f₂ w).2) :
    InStep (RestoreWalk.andThen x₁ f₁) (RestoreWalk.andThen x₂ f₂) := by
  rcases h with ⟨h₁, h₂, ht⟩ | h | h
  · obtain ⟨r₁, w₁⟩ := x₁
    obtain ⟨r₂, w₂⟩ := x₂
    cases h₁
    cases h₂
    exact hf w₁ w₂ ht
  · exact .inr (.inl (broken_andThen hn₁ h))
  · exact .inr (.inr (broken_andThen hn₂ h))

theorem InStep.pop (h : InStep x₁ x₂) : InStep (x₁.1, x₁.2.pop) (x₂.1, x₂.2.pop) := by
  rcases h with ⟨h₁, h₂, index, ht⟩ | h | h
  · exact .inl ⟨h₁, h₂, index, congrArg RestoreWalk.pop ht⟩
  · exact .inr (.inl h)
  · exact .inr (.inr h)

theorem inStep_create (h : Twin w₁ w₂) : InStep w₁.create w₂.create := by
  obtain ⟨index, rfl⟩ := h
  exact .of_twin rfl ⟨index, rfl⟩

theorem inStep_open (h : Twin w₁ w₂) : InStep w₁.open_ w₂.open_ := by
  obtain ⟨index, rfl⟩ := h
  exact .of_twin rfl ⟨index, rfl⟩

theorem inStep_createIf (h : Twin w₁ w₂) (b : Bool) : InStep (w₁.createIf b) (w₂.createIf b) := by
  cases b
  · exact .inl ⟨rfl, rfl, h⟩
  · exact inStep_create h

theorem inStep_openIf (h : Twin w₁ w₂) (b : Bool) : InStep (w₁.openIf b) (w₂.openIf b) := by
  cases b
  · exact .inl ⟨rfl, rfl, h⟩
  · exact inStep_open h

theorem inStep_recheckBase (h : Twin w₁ w₂) : InStep w₁.recheckBase w₂.recheckBase := by
  obtain ⟨index, rfl⟩ := h
  unfold recheckBase
  dsimp only
  split_ifs
  · exact inStep_create ⟨index, rfl⟩
  · exact .inl ⟨rfl, rfl, index, rfl⟩

theorem inStep_finishDir (h : Twin w₁ w₂) (e : Entry) :
    InStep (w₁.finishDir e) (w₂.finishDir e) := by
  obtain ⟨index, rfl⟩ := h
  obtain ⟨target, levels, index₁, summary, links, select⟩ := w₁
  unfold finishDir
  cases levels with
  | nil => exact .of_twin rfl ⟨index, rfl⟩
  | cons l ls =>
    dsimp only
    split_ifs
    · exact .of_twin rfl ⟨index, rfl⟩
    · cases target.metaHandle l.path (l.handle.getD false) with
      | error err => exact .of_twin rfl ⟨index, rfl⟩
      | ok u => exact .of_twin rfl ⟨index, rfl⟩

theorem inStep_restoreSymlink (h : Twin w₁ w₂) (dir : RelPath) (e : Entry) :
    InStep (w₁.restoreSymlink dir e) (w₂.restoreSymlink dir e) := by
  obtain ⟨index, rfl⟩ := h
  unfold restoreSymlink
  dsimp only
  rcases w₁.target.replaceWithSymlink dir e.name e.target with ⟨_ | _, target⟩
  · exact .of_twin rfl ⟨index, rfl⟩
  · exact .of_twin rfl ⟨index, rfl⟩

end InStep

/-! ### Leaves -/

section Leaves

variable {env₁ env₂ : IndexLoads} {repo₁ repo₂ : Repository} {w₁ w₂ : RestoreWalk}

/-- A file that was restored: its bytes, and that nothing else has changed but the time of the
directory. -/
theorem restoreFile_ok {env : IndexLoads} {repo : Repository} {w w' : RestoreWalk} {dir : RelPath}
    {node : Entry} {bytes : Bytes} (h : w.restoreFile env repo dir node = (.ok bytes, w')) :
    node.fileContent.Holds repo.keys bytes ∧
      ∃ index, w' = { w with target := w.target.touch dir, index } := by
  refine ⟨(w.restoreFile_spec dir node).2.1 bytes (congrArg Prod.fst h), ?_⟩
  unfold restoreFile at h
  cases hr : w.target.refuseInTheWay dir node.name with
  | error e =>
    rw [hr] at h
    cases h
  | ok u =>
    rw [hr] at h
    dsimp only at h
    rcases hres : w.index.resolveChunks env repo node.chunks node.content with ⟨_ | ids, index⟩ <;>
      rw [hres] at h
    · cases h
    · dsimp only at h
      split_ifs at h with hmay
      · cases h
      · rcases hread : index.readChunks env repo ids with ⟨_ | bytes', index'⟩ <;> rw [hread] at h
        · cases h
        · dsimp only at h
          split_ifs at h with hlen
          · cases h
          · cases h
            exact ⟨index', rfl⟩

/-- Two restores of one file that go well restore the same bytes. -/
theorem inStep_restoreCopy (hkeys : repo₁.keys = repo₂.keys)
    (hinj : Function.Injective repo₁.keys.chunkId) (h : Twin w₁ w₂) (dir : RelPath) (e : Entry) :
    InStep (w₁.restoreCopy env₁ repo₁ dir e) (w₂.restoreCopy env₂ repo₂ dir e) := by
  obtain ⟨index, rfl⟩ := h
  unfold restoreCopy
  dsimp only
  rcases h₁ : w₁.restoreFile env₁ repo₁ dir e with ⟨err | bytes, v⟩
  · exact .inr (.inl (.inl nofun))
  rcases h₂ : ({ w₁ with index } : RestoreWalk).restoreFile env₂ repo₂ dir e with ⟨err | bytes', v'⟩
  · exact .inr (.inr (.inl nofun))
  obtain ⟨hb, index₁, rfl⟩ := restoreFile_ok h₁
  obtain ⟨hb', index₂, rfl⟩ := restoreFile_ok h₂
  obtain rfl : bytes = bytes' := hb.unique hinj (hkeys ▸ hb')
  have hmode : tempFileMode { w₁ with index } dir e = w₁.tempFileMode dir e := rfl
  rw [hmode]
  dsimp only
  split
  · exact .of_twin rfl ⟨index₂, rfl⟩
  · exact .of_twin rfl ⟨index₂, rfl⟩

theorem inStep_restoreFileEntry (hkeys : repo₁.keys = repo₂.keys)
    (hinj : Function.Injective repo₁.keys.chunkId) (h : Twin w₁ w₂) (dir : RelPath) (e : Entry) :
    InStep (w₁.restoreFileEntry env₁ repo₁ dir e) (w₂.restoreFileEntry env₂ repo₂ dir e) := by
  obtain ⟨index, rfl⟩ := h
  unfold restoreFileEntry
  dsimp only
  cases e.hardlinkKey.bind w₁.hardlinks.lookup with
  | none => exact inStep_restoreCopy hkeys hinj ⟨index, rfl⟩ dir e
  | some first =>
    dsimp only
    rcases w₁.target.linkToFirst first dir e.name with ⟨_ | _, target⟩
    · exact inStep_restoreCopy hkeys hinj ⟨index, rfl⟩ dir e
    · exact .of_twin rfl ⟨index, rfl⟩

end Leaves

/-! ### Directories -/

/-- Restoring into a directory keeps walks in step. -/
def StepsTogether (dir₁ dir₂ : RestoreDir) : Prop :=
  ∀ w₁ w₂ e pos, Twin w₁ w₂ → InStep (dir₁ w₁ e pos) (dir₂ w₂ e pos)

section Walks

variable {env₁ env₂ : IndexLoads} {repo₁ repo₂ : Repository} {w₁ w₂ : RestoreWalk}
  {dir₁ dir₂ : Option RestoreDir}

theorem inStep_restoreKind (hkeys : repo₁.keys = repo₂.keys)
    (hinj : Function.Injective repo₁.keys.chunkId) (hdir : Option.Rel StepsTogether dir₁ dir₂)
    (h : Twin w₁ w₂) (e : Entry) (pos : Pos) :
    InStep (w₁.restoreKind env₁ repo₁ dir₁ e pos) (w₂.restoreKind env₂ repo₂ dir₂ e pos) := by
  unfold restoreKind
  cases e.kind with
  | dir =>
    dsimp only
    split_ifs
    · exact .of_twin rfl h
    · cases hdir with
      | none => exact .of_twin rfl h
      | some hstep => exact hstep w₁ w₂ e pos h
  | file =>
    refine (inStep_open h).andThen (fun v₁ v₂ hv => ?_)
      (fun w => .of_eq (restoreFileEntry_spec w _ e).1.errors)
      (fun w => .of_eq (restoreFileEntry_spec w _ e).1.errors)
    obtain ⟨index, rfl⟩ := hv
    exact inStep_restoreFileEntry hkeys hinj ⟨index, rfl⟩ _ e
  | symlink =>
    refine (inStep_open h).andThen (fun v₁ v₂ hv => ?_)
      (fun w => .of_eq (restoreSymlink_spec w _ e).1.errors)
      (fun w => .of_eq (restoreSymlink_spec w _ e).1.errors)
    obtain ⟨index, rfl⟩ := hv
    exact inStep_restoreSymlink ⟨index, rfl⟩ _ e

theorem restoreNode_of_ok {env : IndexLoads} {repo : Repository} {dir : Option RestoreDir}
    {w : RestoreWalk} {e : Entry} {pos : Pos} (h : (w.restoreKind env repo dir e pos).1 = .ok ()) :
    w.restoreNode env repo dir e pos = (w.restoreKind env repo dir e pos).2 := by
  unfold restoreNode
  rcases hk : w.restoreKind env repo dir e pos with ⟨_ | _, v⟩
  · rw [hk] at h
    cases h
  · rfl

theorem restoreNode_of_broken {env : IndexLoads} {repo : Repository} {dir : Option RestoreDir}
    {w : RestoreWalk} {e : Entry} {pos : Pos} (h : Broken (w.restoreKind env repo dir e pos)) :
    (w.restoreNode env repo dir e pos).summary.errors ≠ [] := by
  unfold restoreNode
  rcases hk : w.restoreKind env repo dir e pos with ⟨_ | _, v⟩ <;> rw [hk] at h
  · exact v.errors_note _ _
  · exact h.resolve_left fun h => h rfl

theorem inStep_restoreNode (hkeys : repo₁.keys = repo₂.keys)
    (hinj : Function.Injective repo₁.keys.chunkId) (hdir : Option.Rel StepsTogether dir₁ dir₂)
    (h : Twin w₁ w₂) (e : Entry) (pos : Pos) :
    InStep (.ok (), w₁.restoreNode env₁ repo₁ dir₁ e pos)
      (.ok (), w₂.restoreNode env₂ repo₂ dir₂ e pos) := by
  have hkind : InStep (w₁.restoreKind env₁ repo₁ dir₁ e pos)
    (w₂.restoreKind env₂ repo₂ dir₂ e pos) :=
    inStep_restoreKind hkeys hinj hdir h e pos
  rcases hkind with ⟨h₁, h₂, ht⟩ | hb | hb
  · rw [restoreNode_of_ok h₁, restoreNode_of_ok h₂]
    exact .inl ⟨rfl, rfl, ht⟩
  · exact .inr (.inl (.inr (restoreNode_of_broken hb)))
  · exact .inr (.inr (.inr (restoreNode_of_broken hb)))

theorem inStep_restoreEntries (hkeys : repo₁.keys = repo₂.keys)
    (hinj : Function.Injective repo₁.keys.chunkId) (hdir : Option.Rel StepsTogether dir₁ dir₂)
    (hn₁ : ∀ f ∈ dir₁, ∀ w e pos, Noted w (f w e pos).2)
    (hn₂ : ∀ f ∈ dir₂, ∀ w e pos, Noted w (f w e pos).2)
    {after : RestoreWalk → Except CoreError Unit × RestoreWalk}
    (hafter : ∀ w₁ w₂, Twin w₁ w₂ → InStep (after w₁) (after w₂))
    (hna : ∀ w, Noted w (after w).2) (pos : Pos) (es : List Entry) :
    ∀ {w₁ w₂ : RestoreWalk}, Twin w₁ w₂ →
      InStep (restoreEntries env₁ repo₁ dir₁ after pos es w₁)
        (restoreEntries env₂ repo₂ dir₂ after pos es w₂) := by
  induction es with
  | nil => exact fun h => .inl ⟨rfl, rfl, h⟩
  | cons e es ih =>
    intro w₁ w₂ h
    obtain ⟨index, rfl⟩ := h
    have hrest₁ := noted_restoreEntries env₁ repo₁ hn₁ after hna pos es
    have hrest₂ := noted_restoreEntries env₂ repo₂ hn₂ after hna pos es
    unfold restoreEntries
    cases validateChildName e.name with
    | error err => exact ih ⟨index, rfl⟩
    | ok u =>
      dsimp only
      rcases w₁.select.visit pos e with ⟨_ | child, select⟩
      · exact ih ⟨index, rfl⟩
      · refine (inStep_openIf ⟨index, rfl⟩ child.selected).andThen (fun v₁ v₂ hv => ?_)
          (fun w => ?_) (fun w => ?_)
        · have hnode : InStep (.ok (), v₁.restoreNode env₁ repo₁ dir₁ e child)
              (.ok (), v₂.restoreNode env₂ repo₂ dir₂ e child) :=
            inStep_restoreNode hkeys hinj hdir hv e child
          exact (hnode.andThen hafter hna hna).andThen (fun _ _ h => ih h) hrest₁ hrest₂
        · exact noted_andThen hrest₁ ((noted_restoreNode env₁ repo₁ hn₁ w e child).trans (hna _))
        · exact noted_andThen hrest₂ ((noted_restoreNode env₂ repo₂ hn₂ w e child).trans (hna _))

/-- The end of `restore_dir`, with the entries restored. -/
def afterEntries (e : Entry) (w : RestoreWalk) : Except CoreError Unit × RestoreWalk :=
  if (w.levels.head?.bind PendingDir.handle).isNone then (.ok (), w)
  else andThen w.open_ fun w => w.finishDir e

theorem noted_afterEntries (e : Entry) (w : RestoreWalk) : w.Noted (w.afterEntries e).2 := by
  unfold afterEntries
  split_ifs
  · exact .refl w
  · exact noted_andThen (fun w => noted_finishDir w e) w.noted_open

theorem inStep_afterEntries (h : Twin w₁ w₂) (e : Entry) :
    InStep (w₁.afterEntries e) (w₂.afterEntries e) := by
  obtain ⟨index, rfl⟩ := h
  unfold afterEntries
  dsimp only
  split_ifs
  · exact .inl ⟨rfl, rfl, index, rfl⟩
  · exact (inStep_open ⟨index, rfl⟩).andThen (fun _ _ h => inStep_finishDir h e)
      (fun w => noted_finishDir w e) (fun w => noted_finishDir w e)

/-- `restore_dir` in steps. -/
theorem restoreContent_eq {env : IndexLoads} {repo : Repository} {dir : Option RestoreDir}
    {w : RestoreWalk} {e : Entry} {pos : Pos} :
    w.restoreContent env repo dir e pos = andThen (w.createIf pos.selected) fun w =>
      match repo.readTreeChain e.subtree with
      | .error err => (.error err, w)
      | .ok children =>
        andThen (restoreEntries env repo dir (fun w => (.ok (), w)) pos children w)
          (afterEntries e) :=
  rfl

theorem inStep_restoreContent (hkeys : repo₁.keys = repo₂.keys)
    (hinj : Function.Injective repo₁.keys.chunkId) (htree : Function.Injective repo₁.keys.treeId)
    (hdir : Option.Rel StepsTogether dir₁ dir₂)
    (hn₁ : ∀ f ∈ dir₁, ∀ w e pos, Noted w (f w e pos).2)
    (hn₂ : ∀ f ∈ dir₂, ∀ w e pos, Noted w (f w e pos).2) (h : Twin w₁ w₂) (e : Entry) (pos : Pos) :
    InStep (w₁.restoreContent env₁ repo₁ dir₁ e pos) (w₂.restoreContent env₂ repo₂ dir₂ e pos) := by
  rw [restoreContent_eq, restoreContent_eq]
  have hagree := agree_readTreeChain hkeys htree e.subtree
  cases h₁ : repo₁.readTreeChain e.subtree with
  | error err => exact .inr (.inl (broken_of_error fun _ => nofun))
  | ok es =>
    cases h₂ : repo₂.readTreeChain e.subtree with
    | error err => exact .inr (.inr (broken_of_error fun _ => nofun))
    | ok es' =>
      obtain rfl : es = es' := hagree es es' h₁ h₂
      have hentries : ∀ v₁ v₂ : RestoreWalk, Twin v₁ v₂ → InStep
          (restoreEntries env₁ repo₁ dir₁ (fun w => (.ok (), w)) pos es v₁)
          (restoreEntries env₂ repo₂ dir₂ (fun w => (.ok (), w)) pos es v₂) := fun _ _ =>
        inStep_restoreEntries hkeys hinj hdir hn₁ hn₂ (fun _ _ h => .inl ⟨rfl, rfl, h⟩)
          Noted.refl pos es
      have hnoted : ∀ (env : IndexLoads) (repo : Repository) (dir : Option RestoreDir),
          (∀ f ∈ dir, ∀ w e pos, Noted w (f w e pos).2) → ∀ w : RestoreWalk, w.Noted
            (andThen (restoreEntries env repo dir (fun w => (.ok (), w)) pos es w)
              (afterEntries e)).2 := fun env repo dir hn w =>
        noted_andThen (noted_afterEntries e)
          (noted_restoreEntries env repo hn _ Noted.refl pos es w)
      exact (inStep_createIf h pos.selected).andThen
        (fun v₁ v₂ hv => (hentries v₁ v₂ hv).andThen (fun _ _ h => inStep_afterEntries h e)
          (noted_afterEntries e) (noted_afterEntries e))
        (hnoted env₁ repo₁ dir₁ hn₁) (hnoted env₂ repo₂ dir₂ hn₂)

theorem inStep_restoreDirs (hkeys : repo₁.keys = repo₂.keys)
    (hinj : Function.Injective repo₁.keys.chunkId) (htree : Function.Injective repo₁.keys.treeId) :
    ∀ n, Option.Rel StepsTogether (restoreDirs env₁ repo₁ n) (restoreDirs env₂ repo₂ n)
  | 0 => .none
  | n + 1 => .some fun w₁ w₂ e pos h => by
    obtain ⟨index, rfl⟩ := h
    have hcontent : InStep
        ((w₁.push (.child (levelPath w₁.levels) e)).restoreContent env₁ repo₁
          (restoreDirs env₁ repo₁ n) e pos)
        ((({ w₁ with index } : RestoreWalk).push (.child (levelPath w₁.levels) e)).restoreContent
          env₂
          repo₂ (restoreDirs env₂ repo₂ n) e pos) :=
      inStep_restoreContent hkeys hinj htree (inStep_restoreDirs hkeys hinj htree n)
        (noted_restoreDirs env₁ repo₁ n) (noted_restoreDirs env₂ repo₂ n) ⟨index, rfl⟩ e pos
    exact hcontent.pop

theorem inStep_restorePlacement (hkeys : repo₁.keys = repo₂.keys)
    (hinj : Function.Injective repo₁.keys.chunkId) (htree : Function.Injective repo₁.keys.treeId)
    (h : Twin w₁ w₂) (placement : Placement) :
    InStep (w₁.restorePlacement env₁ repo₁ placement)
      (w₂.restorePlacement env₂ repo₂ placement) := by
  obtain ⟨index, rfl⟩ := h
  have hagree := agree_openPlacement hkeys htree placement w₁.select
  unfold restorePlacement
  dsimp only
  cases h₁ : repo₁.openPlacement placement w₁.select with
  | error err => exact .inr (.inl (.inl nofun))
  | ok opened =>
    cases h₂ : repo₂.openPlacement placement w₁.select with
    | error err => exact .inr (.inr (.inl nofun))
    | ok opened' =>
      obtain rfl : opened = opened' := hagree opened opened' h₁ h₂
      obtain ⟨rel, pos, entries, select⟩ := opened
      have hcreate : InStep
          (({ w₁ with select, levels := [.base rel] } : RestoreWalk).createIf pos.selected)
          (({ w₁ with select, levels := [.base rel], index } : RestoreWalk).createIf
            pos.selected) :=
        inStep_createIf ⟨index, rfl⟩ pos.selected
      have hnoted : ∀ (env : IndexLoads) (repo : Repository) (w : RestoreWalk), w.Noted
          (restoreEntries env repo (restoreDirs env repo (maxTreeDepth - 1)) recheckBase pos
            entries w).2 :=
        fun env repo => noted_restoreEntries env repo (noted_restoreDirs env repo _) recheckBase
          noted_recheckBase pos entries
      refine hcreate.andThen (fun v₁ v₂ hv => ?_) (hnoted env₁ repo₁) (hnoted env₂ repo₂)
      exact (inStep_restoreEntries hkeys hinj (inStep_restoreDirs hkeys hinj htree _)
        (noted_restoreDirs env₁ repo₁ _) (noted_restoreDirs env₂ repo₂ _)
        (fun _ _ h => inStep_recheckBase h) noted_recheckBase pos entries hv).pop

theorem inStep_restorePlacements (hkeys : repo₁.keys = repo₂.keys)
    (hinj : Function.Injective repo₁.keys.chunkId) (htree : Function.Injective repo₁.keys.treeId)
    (placements : List Placement) : ∀ {w₁ w₂ : RestoreWalk}, Twin w₁ w₂ →
      InStep (restorePlacements env₁ repo₁ placements w₁)
        (restorePlacements env₂ repo₂ placements w₂) := by
  induction placements with
  | nil => exact fun h => .inl ⟨rfl, rfl, h⟩
  | cons placement placements ih =>
    intro w₁ w₂ h
    exact (inStep_restorePlacement hkeys hinj htree h placement).andThen (fun _ _ h => ih h)
      (noted_restorePlacements env₁ repo₁ placements)
        (noted_restorePlacements env₂ repo₂ placements)

end Walks

end RestoreWalk

/-! ### A storage that is not to be trusted -/

/-- Whoever holds no keys stores as snapshots what clients have sealed, under any name, and bytes of
his own. -/
def Storage.SnapshotsAmong (sealed : Sealed → Prop) (s : Storage) : Prop :=
  ∀ key x, s.snapshots.lookup key = some x ∨ s.snapshotReplicas.lookup key = some x →
    sealed x ∨ ∃ n, x = .junk n

section Tampered

/-- A snapshot that is read was sealed for its name. -/
theorem Repository.sealed_of_readSnapshot {repo : Repository} {sealed : Sealed → Prop}
    {key : SnapshotKey} (h : repo.store.SnapshotsAmong sealed) {snapshot : Snapshot}
    (hread : repo.readSnapshot key = .ok snapshot) : sealed (.snapshot key snapshot) := by
  unfold Repository.readSnapshot at hread
  cases hlook : (repo.store.snapshots.lookup key).or (repo.store.snapshotReplicas.lookup key) with
  | none =>
    rw [hlook] at hread
    cases hread
  | some x =>
    rw [hlook] at hread
    have hx : sealed x ∨ ∃ n, x = .junk n := by
      refine h key x ?_
      rcases hs : repo.store.snapshots.lookup key with _ | y <;> rw [hs] at hlook
      · exact .inr hlook
      · exact .inl hlook
    dsimp only at hread
    cases hopen : x.openSnapshot key with
    | none =>
      rw [hopen] at hread
      cases hread
    | some snap =>
      rw [hopen] at hread
      dsimp only at hread
      split at hread
      · cases hread
      split_ifs at hread
      cases hread
      cases x with
      | snapshot aad plain =>
        obtain ⟨haad, hplain⟩ := Option.ite_none_right_eq_some.1 hopen
        cases hplain
        subst haad
        exact hx.resolve_right fun ⟨n, hn⟩ => by cases hn
      | chunk | tree | indexBlob | junk => cases hopen

/-- A restore from a storage that somebody without the keys has written to yields what it would have
yielded from the untouched one, unless it ends with an error or reports one. -/
theorem restore_tampered {repo tampered : Repository} {sealed : Sealed → Prop} {key : SnapshotKey}
    {env env' : IndexLoads} {target target₁ target₂ : Target} {opts : RestoreOptions}
    {summary₁ summary₂ : RestoreSummary} (hkeys : tampered.keys = repo.keys)
    (hchunk : Function.Injective repo.keys.chunkId) (htree : Function.Injective repo.keys.treeId)
    (hhonest : repo.store.SnapshotsAmong sealed) (htampered : tampered.store.SnapshotsAmong sealed)
    (honce : ∀ s s', sealed (.snapshot key s) → sealed (.snapshot key s') → s = s')
    (h₁ : repo.restore env key target opts = (.ok summary₁, target₁)) (hno₁ : summary₁.errors = [])
    (h₂ : tampered.restore env' key target opts = (.ok summary₂, target₂))
    (hno₂ : summary₂.errors = []) : summary₂ = summary₁ ∧ target₂ = target₁ := by
  obtain ⟨r₁⟩ := restore_ok h₁
  obtain ⟨r₂⟩ := restore_ok h₂
  have hsnapshot : r₁.snapshot = r₂.snapshot :=
    honce _ _ (Repository.sealed_of_readSnapshot hhonest r₁.read)
      (Repository.sealed_of_readSnapshot htampered r₂.read)
  have hselect : r₁.select = r₂.select := Except.ok.inj (r₁.new.symm.trans r₂.new)
  have hplaces : r₁.placements = r₂.placements := by
    have hagree := agree_placeRoots hkeys.symm htree r₁.snapshot.roots opts.subtree r₁.select
    rw [hsnapshot, hselect] at hagree
    exact hagree _ _ (hsnapshot ▸ hselect ▸ r₁.places) r₂.places
  have hrun : RestoreWalk.InStep
      (RestoreWalk.restorePlacements env repo r₁.placements
        ⟨target, [], ⟨r₁.index, 1, 0⟩, {}, ∅, r₁.select⟩)
      (RestoreWalk.restorePlacements env' tampered r₂.placements
        ⟨target, [], ⟨r₂.index, 1, 0⟩, {}, ∅, r₂.select⟩) := by
    rw [← hplaces, ← hselect]
    exact RestoreWalk.inStep_restorePlacements hkeys.symm hchunk htree r₁.placements
      ⟨⟨r₂.index, 1, 0⟩, rfl⟩
  rw [r₁.run, r₂.run] at hrun
  rcases hrun with ⟨-, -, index, ht⟩ | hb | hb
  · refine ⟨r₂.summary_eq.trans (.trans ?_ r₁.summary_eq.symm),
      r₂.target_eq.trans (.trans ?_ r₁.target_eq.symm)⟩
    · rw [show r₂.w = _ from ht]
    · rw [show r₂.w = _ from ht]
  · exact absurd (r₁.no_errors hno₁) (hb.resolve_left fun h => h rfl)
  · exact absurd (r₂.no_errors hno₂) (hb.resolve_left fun h => h rfl)

end Tampered

/-! ### A storage without an index -/

/-- The repository `twoLinks` with its trees in the place of their replicas and without an index. -/
def Repository.twoLinksTampered : Repository :=
  { Repository.twoLinks with
    store := { Repository.twoLinks.store with
      trees := ∅, treeReplicas := Repository.twoLinks.store.trees, indexes := ∅ } }

/-- What the storage of `twoLinks` holds as snapshots. -/
def snapshotsOfTwoLinks : List (Sigma fun _ : SnapshotKey => Sealed) :=
  Repository.twoLinks.store.snapshots.entries ++ Repository.twoLinks.store.snapshotReplicas.entries

theorem restore_tampered_twoLinks :
    ∃ summary target',
      Repository.twoLinks.restore ⟨fun _ => .ok .new, fun _ => false⟩ ⟨1, 100⟩ .empty
        (.everything keepCase) = (.ok summary, target') ∧
      Repository.twoLinksTampered.restore ⟨fun _ => .ok .new, fun _ => false⟩ ⟨1, 100⟩ .empty
        (.everything keepCase) = (.ok summary, target') := by
  have herrors₁ : (Repository.twoLinks.restore ⟨fun _ => .ok .new, fun _ => false⟩ ⟨1, 100⟩
      .empty (.everything keepCase)).1.toOption.map RestoreSummary.errors =
        some [] := by decide +kernel
  have herrors₂ : (Repository.twoLinksTampered.restore ⟨fun _ => .ok .new, fun _ => false⟩ ⟨1, 100⟩
      .empty (.everything keepCase)).1.toOption.map RestoreSummary.errors =
        some [] := by decide +kernel
  rcases h₁ : Repository.twoLinks.restore ⟨fun _ => .ok .new, fun _ => false⟩ ⟨1, 100⟩
      .empty (.everything keepCase) with ⟨err | summary₁, target₁⟩
  · rw [h₁] at herrors₁
    cases herrors₁
  rcases h₂ : Repository.twoLinksTampered.restore ⟨fun _ => .ok .new, fun _ => false⟩ ⟨1, 100⟩
      .empty (.everything keepCase) with ⟨err | summary₂, target₂⟩
  · rw [h₂] at herrors₂
    cases herrors₂
  rw [h₁] at herrors₁
  rw [h₂] at herrors₂
  have hone : snapshotsOfTwoLinks.length = 1 := by decide +kernel
  obtain ⟨x, hx⟩ := List.length_eq_one_iff.1 hone
  have hamong : Repository.twoLinks.store.SnapshotsAmong fun y => ∃ key,
    ⟨key, y⟩ ∈ snapshotsOfTwoLinks := by
    rintro key y (h | h)
    · exact .inl ⟨key, List.mem_append_left _ (AList.mem_lookup_iff.1 h)⟩
    · exact .inl ⟨key, List.mem_append_right _ (AList.mem_lookup_iff.1 h)⟩
  have hkeys : Repository.twoLinksTampered.keys = Repository.twoLinks.keys := rfl
  obtain ⟨rfl, rfl⟩ := restore_tampered hkeys RepoKeys.chunkId_ideal_injective
    RepoKeys.treeId_ideal_injective hamong hamong (by
      rintro s s' ⟨k, hs⟩ ⟨k', hs'⟩
      rw [hx, List.mem_singleton] at hs hs'
      cases hs.trans hs'.symm
      rfl) h₁ (Option.some.inj herrors₁) h₂ (Option.some.inj herrors₂)
  exact ⟨summary₂, target₂, rfl, rfl⟩

end Kist
