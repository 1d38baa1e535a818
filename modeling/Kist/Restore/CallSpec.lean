import Mathlib
import Kist.Restore.Calls
import Kist.Restore.TargetSpec

/-!
# What the calls of a restore have done

Any one call may fail. These are the specifications of the calls and of the parts that make names,
with what is left of each in the target: for the directories, names and contents, and for the
failing call.

* `OnlyAt`: away from one path nothing has changed but the time of the directory.
* `linkToFirst_spec`: a further name of a file that was restored before.
-/

namespace Kist

open Std.Do

set_option mvcgen.warning false

namespace Target

variable {t t' t'' : Target} {dir path q : RelPath} {name : Bytes} {n : TargetNode}

/-! ### Frames -/

/-- At this path nothing has changed: names may have changed in `dir`, and with them its time. -/
def Kept (t t' : Target) (dir q : RelPath) : Prop :=
  t.node q = t'.node q ∨
    q = dir ∧ ∃ m mtimeNs, t.node q = some (.dir m) ∧ t'.node q = some (.dir { m with mtimeNs })

/-- Away from this path nothing has changed but the time of `dir`. -/
structure OnlyAt (t t' : Target) (dir path : RelPath) : Prop where
  user : t.SameUser t'
  node : ∀ q, q ≠ path → t.Kept t' dir q

/-- Nothing has changed but the time of `dir`. -/
structure Intact (t t' : Target) (dir : RelPath) : Prop where
  user : t.SameUser t'
  node : ∀ q, t.Kept t' dir q

theorem Kept.refl (t : Target) (dir q : RelPath) : t.Kept t dir q := .inl rfl

theorem Kept.trans (h : t.Kept t' dir q) (h' : t'.Kept t'' dir q) : t.Kept t'' dir q := by
  rcases h with h | ⟨rfl, m, _, hm, hm'⟩
  · unfold Kept
    rwa [h]
  · rcases h' with h' | ⟨-, m', mtimeNs, hnode, hnode'⟩
    · exact .inr ⟨rfl, m, _, hm, h' ▸ hm'⟩
    · rw [hm'] at hnode
      cases hnode
      exact .inr ⟨rfl, m, mtimeNs, hm, hnode'⟩

theorem Kept.eq (h : t.Kept t' dir q) (hq : q ≠ dir) : t'.node q = t.node q :=
  h.elim Eq.symm fun h => absurd h.1 hq

/-- A name in the directory belongs to the object it did. -/
theorem Kept.eq_concat (h : t.Kept t' dir (dir ++ [name])) :
    t'.node (dir ++ [name]) = t.node (dir ++ [name]) :=
  h.eq (concat_ne_dir dir name)

theorem Intact.refl (t : Target) {dir : RelPath} : t.Intact t dir := ⟨.refl t, fun _ => .refl ..⟩

theorem Intact.trans (h : t.Intact t' dir) (h' : t'.Intact t'' dir) : t.Intact t'' dir :=
  ⟨h.user.trans h'.user, fun q => (h.node q).trans (h'.node q)⟩

theorem Intact.onlyAt (h : t.Intact t' dir) (path : RelPath) : t.OnlyAt t' dir path :=
  ⟨h.user, fun _ _ => h.node _⟩

theorem OnlyAt.trans (h : t.OnlyAt t' dir path) (h' : t'.OnlyAt t'' dir path) :
    t.OnlyAt t'' dir path :=
  ⟨h.user.trans h'.user, fun q hq => (h.node q hq).trans (h'.node q hq)⟩

theorem OnlyAt.intact (h : t.OnlyAt t' dir path) (hp : t.node path = t'.node path) :
    t.Intact t' dir :=
  ⟨h.user, fun q => if hq : q = path then hq ▸ .inl hp else h.node q hq⟩

theorem onlyAt_put (t : Target) (dir path : RelPath) (n : TargetNode) :
    t.OnlyAt (t.put path n) dir path :=
  ⟨⟨rfl, rfl⟩, fun _ hq => .inl (t.node_put_of_ne n hq).symm⟩

theorem onlyAt_remove (t : Target) (dir path : RelPath) : t.OnlyAt (t.remove path) dir path :=
  ⟨⟨rfl, rfl⟩, fun _ hq => .inl (Function.update_of_ne hq ..).symm⟩

@[simp] theorem node_remove_self (t : Target) (path : RelPath) : (t.remove path).node path = none :=
  Function.update_self ..

theorem node_remove_of_ne (t : Target) (h : q ≠ path) : (t.remove path).node q = t.node q :=
  Function.update_of_ne h ..

theorem intact_touch (t : Target) (dir : RelPath) : t.Intact (t.touch dir) dir := by
  refine ⟨(t.same_touch dir).user, fun q => ?_⟩
  unfold touch
  split
  · next m hm =>
    by_cases hq : q = dir
    · subst hq
      exact .inr ⟨rfl, m, none, hm, t.node_put_self q _⟩
    · exact .inl (t.node_put_of_ne _ hq).symm
  · exact .refl t dir q

@[simp] theorem nextIno_touch (t : Target) (dir : RelPath) : (t.touch dir).nextIno = t.nextIno := by
  unfold touch
  split <;> rfl

/-- The time of a directory changes, and none of the names in it. -/
theorem node_touch (t : Target) (dir : RelPath) (name : Bytes) :
    (t.touch dir).node (dir ++ [name]) = t.node (dir ++ [name]) := by
  unfold touch
  split
  · exact t.node_put_of_ne _ (concat_ne_dir dir name)
  · rfl

/-! ### Calls that succeed -/

/-- A name that was free now belongs to an object, and nothing else has changed. -/
structure Added (t t' : Target) (dir path : RelPath) (n : TargetNode) : Prop where
  free : t.node path = none
  at_path : t'.node path = some n
  only : t.OnlyAt t' dir path

theorem added_put_touch (hfree : t.node (dir ++ [name]) = none) (n : TargetNode) :
    t.Added ((t.put (dir ++ [name]) n).touch dir) dir (dir ++ [name]) n :=
  ⟨hfree, by rw [node_touch, node_put_self],
    (t.onlyAt_put dir _ n).trans ((intact_touch _ dir).onlyAt _)⟩

theorem Added.removed (h : t.Added t' dir path n) : t.Intact (t'.remove path) dir :=
  (h.only.trans (t'.onlyAt_remove dir path)).intact (by rw [h.free, node_remove_self])

/-- The object under the new name has become another one. -/
theorem Added.put (h : t.Added t' dir path n) (n' : TargetNode) :
    t.Added (t'.put path n') dir path n' :=
  ⟨h.free, t'.node_put_self path n', h.only.trans (t'.onlyAt_put dir path n')⟩

theorem createNewFile_ok {mode : ℕ} (h : t.createNewFile dir name mode = .ok ((), t')) :
    t.Added t' dir (dir ++ [name]) (.file t.nextIno [] { mode := t.umask mode }) := by
  unfold createNewFile at h
  dsimp only at h
  split_ifs at h with _ hfree
  cases h
  have hadded := added_put_touch (by simpa using hfree)
    (.file t.nextIno [] { mode := t.umask mode })
  exact ⟨hadded.free, hadded.at_path, ⟨hadded.only.user.asRoot, hadded.only.user.umask⟩,
    hadded.only.node⟩

theorem hardLink_ok {first : RelPath} {free : Bool}
    (h : t.hardLink first dir name = .ok (free, t')) :
    (free = true ∧ ∃ n, t.node first = some n ∧ n.ino? ≠ none ∧ t.Added t' dir (dir ++ [name]) n ∧
      t'.nextIno = t.nextIno) ∨
    (free = false ∧ t' = t ∧ (t.node first).isSome ∧ (t.node (dir ++ [name])).isSome) := by
  unfold hardLink at h
  cases hn : t.node first with
  | none =>
    simp only [hn] at h
    split_ifs at h
  | some n =>
    simp only [hn] at h
    split_ifs at h with _ _ htaken _ hino
    · cases h
      exact .inr ⟨rfl, rfl, rfl, htaken⟩
    · cases h
      exact .inl ⟨rfl, n, rfl, hino, added_put_touch (by simpa using htaken) n,
        nextIno_touch _ dir⟩

theorem symlink_ok {target : Bytes} (h : t.symlink dir name target = .ok ((), t')) :
    t.Added t' dir (dir ++ [name]) (.symlink t.nextIno target none none) := by
  unfold symlink at h
  dsimp only at h
  split_ifs at h with _ _ hfree
  cases h
  have hadded := added_put_touch (by simpa using hfree) (.symlink t.nextIno target none none)
  exact ⟨hadded.free, hadded.at_path, ⟨hadded.only.user.asRoot, hadded.only.user.umask⟩,
    hadded.only.node⟩

/-- A rename does nothing where the two names belong to one object, and else replaces what lay under
the second one, which was no directory. -/
theorem rename_ok {source dest : Bytes} (h : t.rename dir source dest = .ok ((), t')) :
    ∃ n, t.node (dir ++ [source]) = some n ∧
      (t.identity (dir ++ [source]) = t.identity (dir ++ [dest]) ∧ t' = t ∨
        t.identity (dir ++ [source]) ≠ t.identity (dir ++ [dest]) ∧
        t'.node (dir ++ [source]) = none ∧ t'.node (dir ++ [dest]) = some n ∧ t.SameUser t' ∧
        ∀ q, q ≠ dir ++ [source] → q ≠ dir ++ [dest] → t.Kept t' dir q) := by
  unfold rename at h
  cases hn : t.node (dir ++ [source]) with
  | none =>
    simp only [hn] at h
    split_ifs at h
  | some n =>
    simp only [hn] at h
    refine ⟨n, rfl, ?_⟩
    -- POSIX: a rename between two links of one file does nothing
    by_cases hid : t.identity (dir ++ [source]) = t.identity (dir ++ [dest])
    · rw [if_pos hid] at h
      refine .inl ⟨hid, ?_⟩
      split_ifs at h
      split at h
      · cases h
      · cases h
        rfl
    · rw [if_neg hid] at h
      split_ifs at h
      split at h
      · cases h
      cases h
      have hne : dir ++ [source] ≠ dir ++ [dest] := fun he => hid (by rw [he])
      refine .inr ⟨hid, ?_, ?_, ?_, fun q hs hd => ?_⟩
      · rw [node_touch, node_put_of_ne _ _ hne, node_remove_self]
      · rw [node_touch, node_put_self]
      · exact ⟨((intact_touch _ dir).user.asRoot), ((intact_touch _ dir).user.umask)⟩
      · have hmoved : ((t.remove (dir ++ [source])).put (dir ++ [dest]) n).node q = t.node q := by
          rw [node_put_of_ne _ _ hd, node_remove_of_ne _ hs]
        exact .trans (.inl hmoved.symm) ((intact_touch _ dir).node q)

theorem removeFile_ok (h : t.removeFile dir name = .ok ((), t')) :
    t'.node (dir ++ [name]) = none ∧ t.OnlyAt t' dir (dir ++ [name]) := by
  unfold removeFile at h
  dsimp only at h
  split_ifs at h
  split at h
  · cases h
  · cases h
  · cases h
    exact ⟨by rw [node_touch, node_remove_self],
      (t.onlyAt_remove dir _).trans ((intact_touch _ dir).onlyAt _)⟩

theorem identity_congr (h : SameObject (t.node q) (t'.node q)) : t'.identity q = t.identity q := by
  rcases h with h | ⟨m, m', hm, hm'⟩
  · rw [identity, identity, h]
  · simp [identity, hm, hm', TargetNode.ino?]

/-- A file lies under a name that is taken and not refused. -/
theorem file_of_refuseInTheWay (h : t.refuseInTheWay dir name = .ok ())
    (htaken : (t.node (dir ++ [name])).isSome) :
    ∃ ino content m, t.node (dir ++ [name]) = some (.file ino content m) := by
  obtain ⟨n, hn⟩ := Option.isSome_iff_exists.1 htaken
  unfold refuseInTheWay kindOf at h
  cases n with
  | file ino content m => exact ⟨ino, content, m, hn⟩
  | dir | symlink | special =>
    rw [hn] at h
    split_ifs at h <;> cases h

theorem exists_hardLink {first : RelPath} : (∃ t', t.hardLink first dir name = .ok (true, t')) ↔
    t.maySearch first.dropLast ∧ t.mayWrite dir ∧ t.node (dir ++ [name]) = none ∧
      ∃ n, t.node first = some n ∧ n.ino? ≠ none := by
  constructor
  · rintro ⟨t', h⟩
    obtain ⟨-, n, hn, hino, hadded, -⟩ | ⟨h, -⟩ := hardLink_ok h
    · refine ⟨?_, ?_, hadded.free, n, hn, hino⟩
      all_goals
        simp only [hardLink, hn, hadded.free] at h
        grind
    · cases h
  · rintro ⟨hs, hw, hfree, n, hn, hino⟩
    exact ⟨(t.put (dir ++ [name]) n).touch dir,
      by simp [hardLink, hs, hw, hfree, hn, hino, maySearch_of_mayWrite hw]⟩

theorem identity_of_ino {ino : ℕ} (h : t.node q = some n) (hino : n.ino? = some ino) :
    t.identity q = some (.inr ino) := by
  simp [identity, h, hino]

theorem ino_of_identity {ino : ℕ} (h : t.identity q = some (.inr ino)) :
    ∃ n, t.node q = some n ∧ n.ino? = some ino := by
  unfold identity at h
  cases hn : t.node q with
  | none => simp [hn] at h
  | some n =>
    refine ⟨n, rfl, ?_⟩
    rw [hn] at h
    cases hino : n.ino? with
    | none => simp [hino] at h
    | some i => simpa [hino] using h

/-- Nothing but a file lies at this path. -/
def Replaceable (t : Target) (path : RelPath) : Prop := ∀ n, t.node path = some n → n.kind = .file

theorem replaceable_of_none (h : t.node path = none) : t.Replaceable path := fun n hn => by
  rw [h] at hn
  cases hn

theorem replaceable_of_refuseInTheWay (h : t.refuseInTheWay dir name = .ok ()) :
    t.Replaceable (dir ++ [name]) := fun n hn => by
  obtain ⟨ino, content, m, hfile⟩ := file_of_refuseInTheWay h (by rw [hn]; rfl)
  rw [hn] at hfile
  cases hfile
  rfl

/-- No object has the next inode number. -/
def FreshIno (t : Target) : Prop := ∀ q n, t.node q = some n → n.ino? ≠ some t.nextIno

/-- What was made under a temporary name takes the place of what lay under the final one, unless
both are names of one object. -/
theorem Added.rename {temp : Bytes} (h : t.Added t' dir (dir ++ [temp]) n)
    (hrefuse : t'.refuseInTheWay dir name = .ok ())
    (hrename : t'.rename dir temp name = .ok ((), t'')) :
    t.Replaceable (dir ++ [name]) ∧
      (t''.node (dir ++ [name]) = some n ∧ t.OnlyAt t'' dir (dir ++ [name]) ∨
        t.identity (dir ++ [name]) = t'.identity (dir ++ [temp]) ∧
        t.node (dir ++ [name]) ≠ none) := by
  obtain ⟨n', hn', hmoved⟩ := rename_ok hrename
  rw [h.at_path] at hn'
  cases hn'
  by_cases htemp : dir ++ [name] = dir ++ [temp]
  · refine ⟨htemp ▸ replaceable_of_none h.free, .inl ?_⟩
    obtain ⟨-, rfl⟩ | ⟨hid, -⟩ := hmoved
    · exact ⟨htemp ▸ h.at_path, htemp ▸ h.only⟩
    · exact absurd (by rw [htemp]) hid
  have hsame := (h.only.node _ htemp).eq_concat
  have hplace : t.Replaceable (dir ++ [name]) := fun x hx =>
    replaceable_of_refuseInTheWay hrefuse x (hsame.trans hx)
  refine ⟨hplace, ?_⟩
  obtain ⟨hid, rfl⟩ | ⟨-, hgone, hat, huser, hothers⟩ := hmoved
  · rw [identity_congr (.inl hsame.symm)] at hid
    refine .inr ⟨hid.symm, fun hnone => ?_⟩
    simp [identity, hnone, h.at_path] at hid
  · refine .inl ⟨hat, h.only.user.trans huser, fun q hq => ?_⟩
    by_cases hqt : q = dir ++ [temp]
    · exact .inl (by rw [hqt, h.free, hgone])
    · exact (h.only.node q hqt).trans (hothers q hqt hq)

/-- A file of its own takes the place of what lay under the name. -/
theorem copied_of_rename {temp bytes : Bytes} {m : TargetMeta} (hfresh : t.FreshIno)
    (h : t.Added t' dir (dir ++ [temp]) (.file t.nextIno bytes m))
    (hrefuse : t'.refuseInTheWay dir name = .ok ())
    (hrename : t'.rename dir temp name = .ok ((), t'')) :
    t.Replaceable (dir ++ [name]) ∧ t''.node (dir ++ [name]) = some (.file t.nextIno bytes m) ∧
      t.OnlyAt t'' dir (dir ++ [name]) := by
  obtain ⟨hplace, hmoved | ⟨hid, -⟩⟩ := h.rename hrefuse hrename
  · exact ⟨hplace, hmoved⟩
  · obtain ⟨x, hx, hino⟩ := ino_of_identity (hid.trans (identity_of_ino h.at_path rfl))
    exact absurd hino (hfresh _ x hx)

/-- A further name was given to the object at `first`. -/
structure Linked (t t' : Target) (first dir path : RelPath) : Prop where
  place : t.Replaceable path
  link : ∃ n, t.node first = some n ∧ n.ino? ≠ none ∧ t'.node path = some n
  only : t.OnlyAt t' dir path

/-- A link under a temporary name takes the place of what lay under the name, unless that is the
same object. -/
theorem linked_of_rename {first : RelPath} {temp : Bytes}
    (hlink : t.hardLink first dir temp = .ok (true, t'))
    (hrefuse : t'.refuseInTheWay dir name = .ok ())
    (hrename : t'.rename dir temp name = .ok ((), t'')) :
    t.Linked t'' first dir (dir ++ [name]) ∨
      t.identity first = t.identity (dir ++ [name]) ∧
      ∃ ino content m, t.node (dir ++ [name]) = some (.file ino content m) := by
  obtain ⟨-, n, hn, hino, hadded, -⟩ | ⟨h, -⟩ := hardLink_ok hlink
  swap
  · cases h
  obtain ⟨hplace, ⟨hat, honly⟩ | ⟨hid, hsome⟩⟩ := hadded.rename hrefuse hrename
  · exact .inl ⟨hplace, ⟨n, hn, hino, hat⟩, honly⟩
  · refine .inr ⟨?_, ?_⟩
    · obtain ⟨ino, hino⟩ := Option.ne_none_iff_exists'.1 hino
      rw [hid, identity_of_ino hn hino, identity_of_ino hadded.at_path hino]
    · obtain ⟨x, hx⟩ := Option.ne_none_iff_exists'.1 hsome
      have hkind := hplace x hx
      cases x with
      | file ino content m => exact ⟨ino, content, m, hx⟩
      | dir | symlink | special => cases hkind

theorem Replaceable.of_intact (h : t.Intact t' dir) (hr : t'.Replaceable path) :
    t.Replaceable path := by
  intro n hn
  rcases h.node path with hsame | ⟨-, m, _, hm, hm'⟩
  · exact hr n (hsame ▸ hn)
  · exact absurd (hr _ hm') (by simp [TargetNode.kind])

theorem FreshIno.of_intact (h : t.Intact t' dir) (hnext : t'.nextIno = t.nextIno)
    (hf : t.FreshIno) :
    t'.FreshIno := by
  intro q n hn
  rw [hnext]
  rcases h.node q with hsame | ⟨-, m, _, hm, hm'⟩
  · exact hf q n (hsame.trans hn)
  · rw [hm'] at hn
    cases hn
    simp [TargetNode.ino?]

end Target

/-! ### Parts of a restore -/

/-- The call that fails is one of the next ones. -/
def CallFaults.Hits (faults : CallFaults) (calls n : ℕ) : Prop :=
  ∃ k < n, faults.fault = some (calls + k)

theorem CallFaults.hits_succ {faults : CallFaults} {calls n : ℕ} :
    faults.Hits calls (n + 1) ↔ faults.fault = some calls ∨ faults.Hits (calls + 1) n := by
  constructor
  · rintro ⟨k, hk, h⟩
    cases k with
    | zero => exact .inl h
    | succ k => exact .inr ⟨k, by omega, by rw [h]; congr 1; omega⟩
  · rintro (h | ⟨k, hk, h⟩)
    · exact ⟨0, by omega, h⟩
    · exact ⟨k + 1, by omega, by rw [h]; congr 1; omega⟩

theorem CallFaults.hits_add {faults : CallFaults} {calls n k : ℕ} :
    faults.Hits calls (n + k) ↔ faults.Hits calls n ∨ faults.Hits (calls + n) k := by
  constructor
  · rintro ⟨i, hi, h⟩
    by_cases hn : i < n
    · exact .inl ⟨i, hn, h⟩
    · exact .inr ⟨i - n, by omega, by rw [h]; congr 1; omega⟩
  · rintro (⟨i, hi, h⟩ | ⟨i, hi, h⟩)
    · exact ⟨i, by omega, h⟩
    · exact ⟨n + i, by omega, by rw [h]; congr 1; omega⟩

namespace Calls

variable {faults : CallFaults} {env : IndexLoads} {repo : Repository} {α : Type} {path : RelPath}
  {s₀ : CallState}

/-- A call is the one that fails, or the target refuses it, or carries it out. -/
@[spec]
theorem perform_spec {op : Target → Except CoreError (α × Target)} :
    ⦃fun s => ⌜s = s₀⌝⦄ perform faults path op
    ⦃post⟨fun a s => ⌜faults.fault ≠ some s₀.calls ∧ ∃ t, op s₀.target = .ok (a, t) ∧
        s = { s₀ with target := t, calls := s₀.calls + 1 }⌝,
      fun e s => ⌜(faults.fault = some s₀.calls ∨ op s₀.target = .error e) ∧
        s = { s₀ with calls := s₀.calls + 1 }⌝⟩⦄ := by
  mvcgen [perform]
  all_goals subst_vars
  all_goals simp_all
  rfl

@[spec]
theorem ask_spec {op : Target → Except CoreError α} :
    ⦃fun s => ⌜s = s₀⌝⦄ ask faults path op
    ⦃post⟨fun a s => ⌜faults.fault ≠ some s₀.calls ∧ op s₀.target = .ok a ∧
        s = { s₀ with calls := s₀.calls + 1 }⌝,
      fun e s => ⌜(faults.fault = some s₀.calls ∨ op s₀.target = .error e) ∧
        s = { s₀ with calls := s₀.calls + 1 }⌝⟩⦄ := by
  mvcgen [ask]
  all_goals cases hop : op s₀.target <;> simp_all [Except.map]

@[spec]
theorem alter_spec {op : Target → Target} :
    ⦃fun s => ⌜s = s₀⌝⦄ alter faults path op
    ⦃post⟨fun _ s => ⌜faults.fault ≠ some s₀.calls ∧
        s = { s₀ with target := op s₀.target, calls := s₀.calls + 1 }⌝,
      fun _ s => ⌜faults.fault = some s₀.calls ∧ s = { s₀ with calls := s₀.calls + 1 }⌝⟩⦄ := by
  mvcgen [alter]
  all_goals simp_all

@[spec]
theorem attempt_spec {x : Calls α}
    {Q : PostCond (Except CoreError α) (.except CoreError (.arg CallState .pure))} :
    ⦃wp⟦x⟧ (fun a => Q.1 (.ok a), fun e => Q.1 (.error e), ())⦄ attempt x ⦃Q⦄ := by
  mvcgen [attempt]

@[spec]
theorem dropping_spec {x : Calls α} {temp : RelPath}
    {Q : PostCond α (.except CoreError (.arg CallState .pure))} :
    ⦃wp⟦x⟧ (Q.1, fun e s => Q.2.1 e { s with target := s.target.remove temp }, ())⦄
    dropping temp x ⦃Q⦄ := by
  mvcgen [dropping]

@[spec]
theorem reading_spec {x : ReloadableIndex → Except CoreError α × ReloadableIndex} :
    ⦃fun s => ⌜s = s₀⌝⦄ reading x
    ⦃post⟨fun a s => ⌜∃ index, x s₀.index = (.ok a, index) ∧ s = { s₀ with index }⌝,
      fun e s => ⌜∃ index, x s₀.index = (.error e, index) ∧ s = { s₀ with index }⌝⟩⦄ := by
  mvcgen [reading]
  all_goals subst_vars
  all_goals refine ⟨_, ?_, rfl⟩
  all_goals exact Prod.ext (by assumption) rfl

@[spec]
theorem tempName_spec :
    ⦃fun s => ⌜s = s₀⌝⦄ tempName faults
    ⦃post⟨fun temp s => ⌜faults.fault ≠ some s₀.calls ∧
        temp = ".kist-restore-".toUTF8.toList ++ faults.random s₀.calls ∧
        s = { s₀ with calls := s₀.calls + 1 }⌝,
      fun _ s => ⌜faults.fault = some s₀.calls ∧ s = { s₀ with calls := s₀.calls + 1 }⌝⟩⦄ := by
  mvcgen [tempName]
  all_goals simp_all

@[spec]
theorem sameFile_spec {first : RelPath} :
    ⦃fun s => ⌜s = s₀⌝⦄ sameFile faults first path
    ⦃post⟨fun same s => ⌜s = { s₀ with calls := s₀.calls + 2 } ∧
        (same = true ↔ faults.fault ≠ some s₀.calls ∧ faults.fault ≠ some (s₀.calls + 1) ∧
          ∃ i, s₀.target.identity first = some i ∧ s₀.target.identity path = some i)⌝,
      fun _ _ => ⌜False⌝⟩⦄ := by
  mvcgen [sameFile] with grind

@[spec]
theorem commit_spec {dir : RelPath} {temp dest : Bytes} :
    ⦃fun s => ⌜s = s₀⌝⦄ commit faults dir temp dest
    ⦃post⟨fun _ s => ⌜faults.fault ≠ some s₀.calls ∧ faults.fault ≠ some (s₀.calls + 1) ∧
        s₀.target.refuseInTheWay dir dest = .ok () ∧
        ∃ t, s₀.target.rename dir temp dest = .ok ((), t) ∧
          s = { s₀ with target := t, calls := s₀.calls + 2 }⌝,
      fun e s => ⌜(faults.fault = some s₀.calls ∨ faults.fault = some (s₀.calls + 1) ∨
        s₀.target.refuseInTheWay dir dest = .error e ∨ s₀.target.rename dir temp dest = .error e) ∧
        ∃ n, s = { s₀ with calls := n }⌝⟩⦄ := by
  mvcgen [commit, refuseInTheWay] with grind

@[spec]
theorem openRel_spec {names : List Bytes} {dir : RelPath} :
    ⦃fun s => ⌜s = s₀⌝⦄ openRel faults dir names
    ⦃post⟨fun _ s => ⌜s = { s₀ with calls := s₀.calls + names.length } ∧
        s₀.target.openRel dir names = .ok () ∧ ¬faults.Hits s₀.calls names.length⌝,
      fun e s => ⌜(faults.Hits s₀.calls names.length ∨ s₀.target.openRel dir names = .error e) ∧
        ∃ n, s = { s₀ with calls := n }⌝⟩⦄ := by
  induction names generalizing dir s₀ with
  | nil =>
    mvcgen [openRel]
    subst_vars
    simp [Target.openRel, CallFaults.Hits]
  | cons name names ih =>
    have hcons : s₀.target.openRel dir (name :: names) =
        match s₀.target.openChildDir dir name with
        | .error e => .error e
        | .ok _ => s₀.target.openRel (dir ++ [name]) names := by
      rw [Target.openRel]
      cases s₀.target.openChildDir dir name <;> rfl
    cases hop : s₀.target.openChildDir dir name <;> rw [hop] at hcons
    all_goals mvcgen [openRel, ih] with grind [CallFaults.hits_succ, Except.map]

/-- The name that `temp_name` draws at a call. -/
def tempNameAt (faults : CallFaults) (calls : ℕ) : Bytes :=
  ".kist-restore-".toUTF8.toList ++ faults.random calls

theorem linkOver_spec {first dir : RelPath} {name : Bytes}
    (htaken : (s₀.target.node (dir ++ [name])).isSome) :
    ⦃fun s => ⌜s = s₀⌝⦄ linkOver faults first dir name
    ⦃post⟨fun _ s => ⌜∃ t n, s = { s₀ with target := t, calls := n } ∧
        (s₀.target.Intact t dir ∨ s₀.target.Linked t first dir (dir ++ [name]) ∨
          (faults.fault = some s₀.calls ∨ faults.fault = some (s₀.calls + 1)) ∧
          s₀.target.identity first = s₀.target.identity (dir ++ [name]) ∧
          (∃ ino content m, s₀.target.node (dir ++ [name]) = some (.file ino content m)) ∧
          ∃ t', s₀.target.hardLink first dir (tempNameAt faults (s₀.calls + 2)) = .ok (true, t'))⌝,
      fun _ s => ⌜∃ t n, s = { s₀ with target := t, calls := n } ∧ s₀.target.Intact t dir ∧
        t.nextIno = s₀.target.nextIno⌝⟩⦄ := by
  mvcgen [linkOver]
  -- both names are seen to be one file already
  case vc1.post.success.isTrue s hs same hsame s' h =>
    subst hs
    exact ⟨_, _, h.1, .inl (.refl _)⟩
  -- link under a temporary name and rename over the old one. The rename does nothing where both
  -- names are one file, and then the temporary name stays; the comparison before it fails to see
  -- that only if one of its two calls failed.
  case vc2.post.success.isFalse.post.success.post.success.isTrue.post.success
      s hs same hsame s₁ h₁ temp s₂ h₂ free hfree s₃ h₃ _ s₄ =>
    rintro - - hrefuse ⟨t, hrename, rfl⟩
    subst hs hfree
    obtain ⟨rfl, hiff⟩ := h₁
    obtain ⟨-, rfl, rfl⟩ := h₂
    obtain ⟨-, t', hlink, rfl⟩ := h₃
    refine ⟨t, _, rfl, .inr ?_⟩
    obtain hlinked | ⟨hid, hfile⟩ := Target.linked_of_rename hlink hrefuse hrename
    · exact .inl hlinked
    · refine .inr ⟨?_, hid, hfile, t', hlink⟩
      obtain ⟨i, hi⟩ : ∃ i, s.target.identity (dir ++ [name]) = some i := by
        obtain ⟨ino, content, m, hfile⟩ := hfile
        exact ⟨_, Target.identity_of_ino hfile rfl⟩
      by_contra hno
      obtain ⟨h0, h1⟩ := not_or.1 hno
      exact hsame (hiff.2 ⟨h0, h1, i, hid.trans hi, hi⟩)
  -- the rename fails, and the temporary link is removed
  case vc3.post.success.isFalse.post.success.post.success.isTrue.post.except.handle
      s hs same hsame s₁ h₁ temp s₂ h₂ free hfree s₃ h₃ e s₄ =>
    rintro - ⟨n, rfl⟩
    subst hs hfree
    obtain ⟨rfl, -⟩ := h₁
    obtain ⟨-, rfl, rfl⟩ := h₂
    obtain ⟨-, t', hlink, rfl⟩ := h₃
    obtain ⟨-, n, -, -, hadded, hnext⟩ | ⟨h, -⟩ := Target.hardLink_ok hlink
    · exact ⟨_, _, rfl, hadded.removed, hnext⟩
    · cases h
  -- the temporary name was taken in the meantime
  case vc4.post.success.isFalse.post.success.post.success.isFalse
      s hs same hsame s₁ h₁ temp s₂ h₂ free hfree s₃ h₃ =>
    subst hs
    obtain ⟨rfl, -⟩ := h₁
    obtain ⟨-, rfl, rfl⟩ := h₂
    obtain ⟨-, t', hlink, rfl⟩ := h₃
    obtain ⟨h, -⟩ | ⟨-, rfl, -⟩ := Target.hardLink_ok hlink
    · exact absurd h hfree
    · exact ⟨_, _, rfl, .refl _, rfl⟩
  case vc5.post.success.isFalse.post.success.post.except.handle
      s hs same hsame s₁ h₁ temp s₂ h₂ e s₃ =>
    rintro - rfl
    subst hs
    obtain ⟨rfl, -⟩ := h₁
    obtain ⟨-, -, rfl⟩ := h₂
    exact ⟨_, _, rfl, .refl _, rfl⟩
  case vc6.post.success.isFalse.post.except.handle s hs same hsame s₁ h₁ e s₂ =>
    rintro - rfl
    subst hs
    obtain ⟨rfl, -⟩ := h₁
    exact ⟨_, _, rfl, .refl _, rfl⟩

/-- A further name of a file is restored where the two names belong to one object already, but one
of the looks at them fails. `calls` is the number of the first call. -/
structure LeavesTemp (faults : CallFaults) (t : Target) (calls : ℕ) (first dir : RelPath)
    (name : Bytes) : Prop where
  nonempty : first ≠ []
  one : t.identity first = t.identity (dir ++ [name])
  file : ∃ ino content m, t.node (dir ++ [name]) = some (.file ino content m)
  unseen : faults.fault = some (calls + first.length) ∨
    faults.fault = some (calls + first.length + 1)
  opens : t.openRel [] first.dropLast = .ok ()
  search : t.maySearch first.dropLast
  write : t.mayWrite dir
  free : t.node (dir ++ [tempNameAt faults (calls + first.length + 2)]) = none

theorem linkToFirst_spec {first dir : RelPath} {name : Bytes} :
    ⦃fun s => ⌜s = s₀⌝⦄ linkToFirst faults first dir name
    ⦃post⟨fun _ s => ⌜∃ t n, s = { s₀ with target := t, calls := n } ∧
        (s₀.target.Intact t dir ∨ s₀.target.Linked t first dir (dir ++ [name]) ∨
          LeavesTemp faults s₀.target s₀.calls first dir name)⌝,
      fun _ s => ⌜∃ t n, s = { s₀ with target := t, calls := n } ∧ s₀.target.Intact t dir ∧
        t.nextIno = s₀.target.nextIno⌝⟩⦄ := by
  mvcgen [linkToFirst, linkOver_spec]
  -- no first path, so no link is made
  case vc1.isTrue hfirst s hs => exact ⟨_, _, hs, .refl _, rfl⟩
  -- the name was free
  case vc2.isFalse.post.success.post.success.isTrue hfirst s hs _ s₁ h₁ free hfree s₂ h₂ =>
    subst hs hfree
    obtain ⟨rfl, -⟩ := h₁
    obtain ⟨-, t, hlink, rfl⟩ := h₂
    obtain ⟨-, n, hn, hino, hadded, -⟩ | ⟨h, -⟩ := Target.hardLink_ok hlink
    · exact ⟨t, _, rfl, .inr (.inl ⟨Target.replaceable_of_none hadded.free,
        ⟨n, hn, hino, hadded.at_path⟩, hadded.only⟩)⟩
    · cases h
  -- the name was taken and `linkOver` replaced it; its call numbers are counted on from the walk to
  -- the first file
  case vc3.isFalse.post.success.post.success.isFalse.post.success
      hfirst s hs _ s₁ h₁ free hfree s₂ h₂ _ s₃ =>
    rintro ⟨t, n, rfl, hover⟩
    subst hs
    obtain ⟨rfl, hopens, -⟩ := h₁
    obtain ⟨-, t', hlink, rfl⟩ := h₂
    obtain ⟨h, -⟩ | ⟨-, rfl, -⟩ := Target.hardLink_ok hlink
    · exact absurd h hfree
    have hlen : s.calls + first.dropLast.length + 1 = s.calls + first.length := by
      rw [List.length_dropLast]
      have := List.length_pos_iff.2 hfirst
      omega
    refine ⟨t, n, rfl, hover.imp_right (.imp_right ?_)⟩
    rintro ⟨hunseen, hone, hfile, hfree⟩
    dsimp only at hunseen hfree
    rw [hlen] at hunseen hfree
    obtain ⟨hsearch, hwrite, hfree, -⟩ := Target.exists_hardLink.1 hfree
    exact ⟨hfirst, hone, hfile, hunseen, hopens, hsearch, hwrite, hfree⟩
  case vc4.isFalse.post.success.post.success.isFalse.post.except.handle
      hfirst s hs _ s₁ h₁ free hfree s₂ h₂ e s₃ =>
    rintro ⟨t, n, rfl, hintact, hnext⟩
    subst hs
    obtain ⟨rfl, -⟩ := h₁
    obtain ⟨-, t', hlink, rfl⟩ := h₂
    obtain ⟨h, -⟩ | ⟨-, rfl, -⟩ := Target.hardLink_ok hlink
    · exact absurd h hfree
    exact ⟨t, n, rfl, hintact, hnext⟩
  case vc5 hfirst s hs _ s₁ h₁ free hfree =>
    rintro s₂ - ⟨t, hlink, rfl⟩
    obtain ⟨h, -⟩ | ⟨-, rfl, -, htaken⟩ := Target.hardLink_ok hlink
    · exact absurd h hfree
    · exact htaken
  case vc6.isFalse.post.success.post.except.handle hfirst s hs _ s₁ h₁ e s₂ =>
    rintro - rfl
    subst hs
    obtain ⟨rfl, -⟩ := h₁
    exact ⟨_, _, rfl, .refl _, rfl⟩
  case vc7.isFalse.post.except.handle hfirst s hs e s₁ =>
    rintro - ⟨n, rfl⟩
    subst hs
    exact ⟨_, _, rfl, .refl _, rfl⟩

end Calls
end Kist
