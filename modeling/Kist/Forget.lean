import Kist.Prune.Crash
import Kist.Retention

/-!
# Forgetting snapshots

`kist-core::forget`: the snapshots that were named, and those that the policy does not keep, are
deleted with their replicas. The policy is applied to the snapshots of one client and the same
roots.

`forget_exact_iff`: exactly these are deleted, unless the date arithmetic of a group panics.
-/

namespace Kist

/-- `ForgetOptions`. -/
structure ForgetOptions where
  snapshots : List SnapshotKey
  policy : RetentionPolicy
  dryRun : Bool

/-- The snapshots that were named, sorted and each once. -/
def ForgetOptions.named (opts : ForgetOptions) : List SnapshotKey :=
  (opts.snapshots.insertionSort fun a b =>
    toLex (a.client, a.timeNs) ≤ toLex (b.client, b.timeNs)).dedup

/-- `ForgetSummary`. -/
structure ForgetSummary where
  removed : List SnapshotKey
  kept : List (SnapshotKey × List String)
  deriving DecidableEq, Repr

/-- `SnapshotInfo`. -/
structure SnapshotInfo where
  key : SnapshotKey
  snapshot : Snapshot

/-- `GroupKey`: a client and the paths of its roots. -/
abbrev GroupKey := ℕ ×ₗ List Bytes

/-- The group of a snapshot. -/
def SnapshotInfo.group (s : SnapshotInfo) : GroupKey :=
  toLex (s.snapshot.clientId, s.snapshot.roots.map Root.path)

/-- The candidate that a snapshot is to the policy. -/
def SnapshotInfo.candidate (s : SnapshotInfo) : Candidate := ⟨s.key, s.snapshot.timeNs⟩

namespace Repository

variable (repo : Repository)

/-- The loop of `list_snapshots`. -/
def readSnapshots : List SnapshotKey → Except CoreError (List SnapshotInfo)
  | [] => .ok []
  | key :: keys =>
    match repo.readSnapshot key with
    | .error e => .error e
    | .ok snapshot =>
      match readSnapshots keys with
      | .error e => .error e
      | .ok rest => .ok (⟨key, snapshot⟩ :: rest)

/-- `list_snapshots`. -/
def listSnapshots : Except CoreError (List SnapshotInfo) := repo.readSnapshots repo.listSnapshotKeys

/-- The snapshots are deleted, each after its replica. -/
def deleteSnapshots : Repository → List SnapshotKey → Repository
  | repo, [] => repo
  | repo, key :: keys =>
    deleteSnapshots { repo with
      store.snapshotReplicas := repo.store.snapshotReplicas.erase key
      store.snapshots := repo.store.snapshots.erase key } keys

end Repository

/-- The loop that finds the group of each snapshot that was not named. -/
def groupSnapshots (named : List SnapshotKey) :
    List SnapshotInfo → Except CoreError (List (GroupKey × Candidate))
  | [] => .ok []
  | s :: rest =>
    if s.key ∈ named then groupSnapshots named rest
    else if s.snapshot.timeNs < minDateTime ∨ maxDateTime < s.snapshot.timeNs then
      .error (.corrupt (.snapshot s.key) s!"bad time {s.snapshot.timeNs}")
    else match groupSnapshots named rest with
      | .error e => .error e
      | .ok grouped => .ok ((s.group, s.candidate) :: grouped)

/-- The groups in the order of their keys. -/
def groupsOf (grouped : List (GroupKey × Candidate)) : List (List Candidate) :=
  ((grouped.map Prod.fst).dedup.insertionSort (· ≤ ·)).map fun g =>
    (grouped.filter fun x => x.1 = g).map Prod.snd

/-- The loop over the groups: what is not kept, and what is kept. -/
def applyGroups (cal : Calendar) (policy : RetentionPolicy) :
    List (List Candidate) → Option (List SnapshotKey × List (SnapshotKey × List String))
  | [] => some ([], [])
  | cs :: rest => do
    let out ← applyPolicy cal cs policy
    let (removed, kept) ← applyGroups cal policy rest
    return ((out.filter fun r => r.2 = []).map Prod.fst ++ removed,
      (out.filter fun r => r.2 ≠ []) ++ kept)

namespace Repository

/-- What `forget` decides for the snapshots that are there. -/
def forgetPlan (cal : Calendar) (opts : ForgetOptions) (all : List SnapshotInfo) :
    Option (Except CoreError ForgetSummary) :=
  match opts.snapshots.find? fun key => ∀ s ∈ all, s.key ≠ key with
  | some key => some (.error (.snapshotNotFound key))
  | none =>
    if opts.policy.isEmpty then some (.ok ⟨opts.named, []⟩)
    else match groupSnapshots opts.named all with
      | .error e => some (.error e)
      | .ok grouped => do
        let (removed, kept) ← applyGroups cal opts.policy (groupsOf grouped)
        return .ok ⟨opts.named ++ removed, kept⟩

/-- `forget`; nothing where it panics. -/
def forget (cal : Calendar) (repo : Repository) (opts : ForgetOptions) :
    Option (Except CoreError ForgetSummary × Repository) :=
  if opts.snapshots = [] ∧ opts.policy.isEmpty then
    some (.error (.usage
      "nothing to forget: give snapshot ids or a retention policy (--keep-*)"), repo)
  else match opts.policy.validate with
    | .error e => some (.error e, repo)
    | .ok () =>
      match repo.listSnapshots with
      | .error e => some (.error e, repo)
      | .ok all => do
        match ← forgetPlan cal opts all with
        | .error e => return (.error e, repo)
        | .ok summary =>
          return (.ok summary, if opts.dryRun then repo else repo.deleteSnapshots summary.removed)

end Repository

/-! ### What is deleted -/

/-- The snapshots of a group that were not named, as candidates. -/
def groupCandidates (all : List SnapshotInfo) (named : List SnapshotKey) (g : GroupKey) :
    List Candidate :=
  (all.filter fun s => s.key ∉ named ∧ s.group = g).map SnapshotInfo.candidate

section Groups

variable {cal : Calendar} {policy : RetentionPolicy} {named : List SnapshotKey}
  {all : List SnapshotInfo} {cs : List Candidate} {key : SnapshotKey}

/-- Times of 64 bits are in the range of dates. -/
theorem groupSnapshots_ok
    (htime : ∀ s ∈ all, -2 ^ 63 ≤ s.snapshot.timeNs ∧ s.snapshot.timeNs < 2 ^ 63) :
    groupSnapshots named all =
      .ok ((all.filter fun s => s.key ∉ named).map fun s => (s.group, s.candidate)) := by
  induction all with
  | nil => rfl
  | cons s rest ih =>
    have hrange : ¬(s.snapshot.timeNs < minDateTime ∨ maxDateTime < s.snapshot.timeNs) := by
      have := htime s (by simp)
      unfold minDateTime maxDateTime
      omega
    rw [groupSnapshots, if_neg hrange, ih fun x hx => htime x (List.mem_cons_of_mem _ hx)]
    by_cases hnamed : s.key ∈ named <;> simp [hnamed]

/-- The groups of the snapshots that were not named. -/
theorem mem_groupsOf : cs ∈ groupsOf ((all.filter fun s => s.key ∉ named).map fun s =>
      (s.group, s.candidate)) ↔
    ∃ s ∈ all, s.key ∉ named ∧ cs = groupCandidates all named s.group := by
  have hgroup : ∀ g,
    ((((all.filter fun s => s.key ∉ named).map fun s => (s.group, s.candidate)).filter
      fun x => x.1 = g).map Prod.snd) = groupCandidates all named g := by
    intro g
    rw [List.filter_map, List.map_map, List.filter_filter, groupCandidates]
    congr 1
    refine List.filter_congr fun s _ => ?_
    simp [Bool.and_comm]
  unfold groupsOf
  simp only [hgroup, List.mem_map, List.mem_insertionSort, List.mem_dedup, List.mem_filter,
    decide_eq_true_eq]
  constructor
  · rintro ⟨g, ⟨x, ⟨s, ⟨hs, hnamed⟩, rfl⟩, rfl⟩, rfl⟩
    exact ⟨s, hs, hnamed, rfl⟩
  · rintro ⟨s, hs, hnamed, rfl⟩
    exact ⟨s.group, ⟨_, ⟨s, ⟨hs, hnamed⟩, rfl⟩, rfl⟩, rfl⟩

/-- What the policy does not keep of a group is removed. -/
theorem mem_removed_iff (hcal : cal.Lawful) (hcs : (cs.map Candidate.key).Nodup)
    (hover : ¬WithinOverflows policy cs) :
    ∃ out, applyPolicy cal cs policy = some out ∧
      ∀ key, key ∈ (out.filter fun r => r.2 = []).map Prod.fst ↔
        ∃ c ∈ cs, c.key = key ∧ ¬Kept cal policy cs c := by
  obtain ⟨out, hout, hkeys, hkept⟩ := applyPolicy_kept hcal (List.Nodup.of_map _ hcs) hover
  refine ⟨out, hout, fun key => ?_⟩
  simp only [List.mem_map, List.mem_filter, decide_eq_true_eq]
  constructor
  · rintro ⟨r, ⟨hr, hnil⟩, rfl⟩
    obtain ⟨c, hc, hkey, hiff⟩ := hkept r hr
    exact ⟨c, hc, hkey.symm, fun h => hiff.2 h hnil⟩
  · rintro ⟨c, hc, rfl, hno⟩
    obtain ⟨r, hr, hkey⟩ := List.mem_map.1 (hkeys.mem_iff.2 (List.mem_map_of_mem hc))
    obtain ⟨c', hc', hkey', hiff⟩ := hkept r hr
    obtain rfl := List.inj_on_of_nodup_map hcs hc' hc (hkey'.symm.trans hkey)
    refine ⟨r, ⟨hr, ?_⟩, hkey⟩
    by_contra hne
    exact hno (hiff.1 hne)

/-- Over all groups. -/
theorem applyGroups_spec (hcal : cal.Lawful) {groups : List (List Candidate)}
    (hkeys : ∀ cs ∈ groups, (cs.map Candidate.key).Nodup)
    (hover : ∀ cs ∈ groups, ¬WithinOverflows policy cs) :
    ∃ removed kept, applyGroups cal policy groups = some (removed, kept) ∧
      ∀ key, key ∈ removed ↔ ∃ cs ∈ groups, ∃ c ∈ cs, c.key = key ∧ ¬Kept cal policy cs c := by
  induction groups with
  | nil => exact ⟨[], [], rfl, by simp⟩
  | cons cs groups ih =>
    obtain ⟨out, hout, hmem⟩ := mem_removed_iff hcal (hkeys cs (by simp)) (hover cs (by simp))
    obtain ⟨removed, kept, hrest, hremoved⟩ := ih (fun x hx => hkeys x (List.mem_cons_of_mem _ hx))
      fun x hx => hover x (List.mem_cons_of_mem _ hx)
    refine ⟨_, _, by rw [applyGroups, hout, hrest]; rfl, fun key => ?_⟩
    rw [List.mem_append, hmem, hremoved, List.exists_mem_cons_iff]

theorem applyGroups_eq_none (hcal : cal.Lawful) {groups : List (List Candidate)} (hcs : cs ∈ groups)
    (hover : WithinOverflows policy cs) : applyGroups cal policy groups = none := by
  induction groups with
  | nil => cases hcs
  | cons cs' groups ih =>
    rw [applyGroups]
    cases hout : applyPolicy cal cs' policy with
    | none => rfl
    | some out =>
      rcases List.mem_cons.1 hcs with rfl | hcs
      · rw [applyPolicy_eq_none hcal hover] at hout
        cases hout
      · rw [ih hcs]
        rfl

end Groups

namespace Repository

variable {repo : Repository} {all : List SnapshotInfo} {named : List SnapshotKey}

/-- What is listed is what lies under the listed keys. -/
theorem readSnapshots_ok {keys : List SnapshotKey} (h : repo.readSnapshots keys = .ok all) :
    all.map SnapshotInfo.key = keys ∧ ∀ s ∈ all, repo.readSnapshot s.key = .ok s.snapshot := by
  induction keys generalizing all with
  | nil =>
    cases h
    exact ⟨rfl, nofun⟩
  | cons key keys ih =>
    rw [readSnapshots] at h
    cases hread : repo.readSnapshot key with
    | error e => simp [hread] at h
    | ok snapshot =>
      cases hrest : repo.readSnapshots keys with
      | error e => simp [hread, hrest] at h
      | ok rest =>
        simp only [hread, hrest] at h
        cases h
        obtain ⟨hkeys, hreads⟩ := ih hrest
        refine ⟨by rw [List.map_cons, hkeys], fun s hs => ?_⟩
        rcases List.mem_cons.1 hs with rfl | hs
        · exact hread
        · exact hreads s hs

theorem nodup_keys_of_listSnapshots (h : repo.listSnapshots = .ok all) :
    (all.map SnapshotInfo.key).Nodup := by
  rw [(readSnapshots_ok h).1, listSnapshotKeys]
  exact (List.perm_insertionSort _ _).nodup_iff.2 repo.store.snapshots.nodupKeys

theorem nodup_groupCandidates {g : GroupKey} (h : repo.listSnapshots = .ok all) :
    ((groupCandidates all named g).map Candidate.key).Nodup := by
  rw [groupCandidates, List.map_map]
  exact (nodup_keys_of_listSnapshots h).sublist (List.filter_sublist.map _)

/-- A deletion leaves everything but these snapshots and their replicas. -/
theorem deleteSnapshots_spec (repo : Repository) (keys : List SnapshotKey) :
    (∀ key, (repo.deleteSnapshots keys).store.snapshots.lookup key =
      if key ∈ keys then none else repo.store.snapshots.lookup key) ∧
    (∀ key, (repo.deleteSnapshots keys).store.snapshotReplicas.lookup key =
      if key ∈ keys then none else repo.store.snapshotReplicas.lookup key) ∧
    ∃ snapshots replicas, repo.deleteSnapshots keys = { repo with
      store.snapshots := snapshots, store.snapshotReplicas := replicas } := by
  induction keys generalizing repo with
  | nil => exact ⟨by simp [deleteSnapshots], by simp [deleteSnapshots], _, _, rfl⟩
  | cons key keys ih =>
    obtain ⟨hsnapshots, hreplicas, snapshots, replicas, heq⟩ := ih { repo with
      store.snapshotReplicas := repo.store.snapshotReplicas.erase key
      store.snapshots := repo.store.snapshots.erase key }
    refine ⟨fun k => ?_, fun k => ?_, snapshots, replicas, heq⟩
    · rw [deleteSnapshots, hsnapshots]
      dsimp only
      rw [Dict.lookup_erase']
      by_cases hk : k = key <;> by_cases hmem : k ∈ keys <;> simp [hk, hmem]
    · rw [deleteSnapshots, hreplicas]
      dsimp only
      rw [Dict.lookup_erase']
      by_cases hk : k = key <;> by_cases hmem : k ∈ keys <;> simp [hk, hmem]

end Repository

/-! ### Exactness -/

/-- What the policy says of a list of candidates is what it does, in any order of the list. -/
def PolicyExact (cal : Calendar) (policy : RetentionPolicy) (cs : List Candidate) : Prop :=
  ∃ out, applyPolicy cal cs policy = some out ∧ (out.map Prod.fst).Perm (cs.map Candidate.key) ∧
    (∀ c ∈ cs, ∃ reasons, (c.key, reasons) ∈ out ∧ (reasons ≠ [] ↔ Kept cal policy cs c)) ∧
    ∀ cs', cs'.Perm cs → applyPolicy cal cs' policy = some out

namespace Repository

/-- The snapshots that were named and those that the policy does not keep in their group are
deleted, and nothing else; the latest one of a group stays; the order of the listing is of no
account. -/
structure ForgetsExactly (cal : Calendar) (repo : Repository) (opts : ForgetOptions)
    (all : List SnapshotInfo) (summary : ForgetSummary) (repo' : Repository) : Prop where
  result : repo.forget cal opts = some (.ok summary, repo')
  removed : ∀ key, key ∈ summary.removed ↔ key ∈ opts.snapshots ∨
    ∃ s ∈ all, s.key = key ∧ s.key ∉ opts.snapshots ∧
      ¬Kept cal opts.policy (groupCandidates all opts.snapshots s.group) s.candidate
  snapshots : ∀ key, repo'.store.snapshots.lookup key =
    if key ∈ summary.removed ∧ opts.dryRun = false then none else repo.store.snapshots.lookup key
  replicas : ∀ key, repo'.store.snapshotReplicas.lookup key =
    if key ∈ summary.removed ∧ opts.dryRun = false then none
      else repo.store.snapshotReplicas.lookup key
  rest : ∃ snapshots replicas, repo' = { repo with
    store.snapshots := snapshots, store.snapshotReplicas := replicas }
  newest : ∀ s ∈ all, s.key ∉ opts.snapshots →
    (∀ x ∈ all, x.key ∉ opts.snapshots → x.group = s.group → x.candidate.rank ≤ s.candidate.rank) →
    s.key ∉ summary.removed
  order : ∀ snapshots, snapshots.entries.Perm repo.store.snapshots.entries →
    ∃ repo'', forget cal { repo with store.snapshots := snapshots } opts =
      some (.ok summary, repo'')

end Repository

section Retention

variable {cal : Calendar} {policy : RetentionPolicy} {cs : List Candidate}

theorem policyExact_iff (hcal : cal.Lawful) (hcs : (cs.map Candidate.key).Nodup) :
    PolicyExact cal policy cs ↔ ¬WithinOverflows policy cs := by
  constructor
  · rintro ⟨out, hout, -⟩ hover
    rw [applyPolicy_eq_none hcal hover] at hout
    cases hout
  · intro hover
    obtain ⟨out, hout, hkeys, hkept⟩ := applyPolicy_kept hcal (List.Nodup.of_map _ hcs) hover
    refine ⟨out, hout, hkeys, fun c hc => ?_,
      fun cs' hperm => by rw [applyPolicy_congr hperm, hout]⟩
    obtain ⟨r, hr, hkey⟩ := List.mem_map.1 (hkeys.mem_iff.2 (List.mem_map_of_mem hc))
    obtain ⟨c', hc', hkey', hiff⟩ := hkept r hr
    obtain rfl := List.inj_on_of_nodup_map hcs hc' hc (hkey'.symm.trans hkey)
    exact ⟨r.2, by rwa [← hkey], hiff⟩

namespace Repository

variable {repo : Repository} {opts : ForgetOptions} {all : List SnapshotInfo}

/-- The order of the listing is of no account to what is listed. -/
theorem listSnapshots_congr {snapshots : Dict SnapshotKey Sealed}
    (h : snapshots.entries.Perm repo.store.snapshots.entries) :
    listSnapshots { repo with store.snapshots := snapshots } = repo.listSnapshots := by
  have hkeys : listSnapshotKeys { repo with store.snapshots := snapshots } =
    repo.listSnapshotKeys := by
    let r (a b : SnapshotKey) : Prop := toLex (a.timeNs, a.client) ≤ toLex (b.timeNs, b.client)
    have : Std.Total r := ⟨fun a b => le_total _ _⟩
    have : IsTrans SnapshotKey r := ⟨fun _ _ _ hab hbc => le_trans hab hbc⟩
    have hperm : snapshots.keys.Perm repo.store.snapshots.keys := h.map _
    refine List.Perm.eq_of_pairwise (fun a b _ _ hab hba => ?_) (List.pairwise_insertionSort r _)
      (List.pairwise_insertionSort r _) ?_
    · cases a
      cases b
      simpa [and_comm] using le_antisymm (show toLex _ ≤ toLex _ from hab) hba
    · exact (List.perm_insertionSort r _).trans (hperm.trans (List.perm_insertionSort r _).symm)
  have hread : ∀ key, readSnapshot { repo with store.snapshots := snapshots } key =
      repo.readSnapshot key := by
    intro key
    unfold readSnapshot
    dsimp only
    rw [AList.perm_lookup h]
  have hreads : ∀ keys, readSnapshots { repo with store.snapshots := snapshots } keys =
      repo.readSnapshots keys := by
    intro keys
    induction keys with
    | nil => rfl
    | cons key keys ih => rw [readSnapshots, readSnapshots, hread, ih]
  rw [listSnapshots, listSnapshots, hkeys, hreads]

theorem mem_named {key : SnapshotKey} : key ∈ opts.named ↔ key ∈ opts.snapshots := by
  rw [ForgetOptions.named, List.mem_dedup, List.mem_insertionSort]

/-- The groups to which the policy is applied. -/
theorem mem_groupsOf_named {cs : List Candidate} :
    cs ∈ groupsOf ((all.filter fun s => s.key ∉ opts.named).map fun s => (s.group, s.candidate)) ↔
      ∃ s ∈ all, s.key ∉ opts.snapshots ∧ cs = groupCandidates all opts.snapshots s.group := by
  rw [mem_groupsOf]
  simp only [groupCandidates, mem_named]

theorem forgetPlan_eq (hempty : opts.policy.isEmpty = false)
    (hnamed : ∀ key ∈ opts.snapshots, ∃ s ∈ all, s.key = key)
    (htime : ∀ s ∈ all, -2 ^ 63 ≤ s.snapshot.timeNs ∧ s.snapshot.timeNs < 2 ^ 63) :
    forgetPlan cal opts all = (applyGroups cal opts.policy (groupsOf
      ((all.filter fun s => s.key ∉ opts.named).map fun s => (s.group, s.candidate)))).map fun r =>
        .ok ⟨opts.named ++ r.1, r.2⟩ := by
  have hfind : opts.snapshots.find? (fun key => ∀ s ∈ all, s.key ≠ key) = none := by
    rw [List.find?_eq_none]
    intro key hkey
    obtain ⟨s, hs, hsk⟩ := hnamed key hkey
    simpa using ⟨s, hs, hsk⟩
  unfold forgetPlan
  rw [hfind, hempty, groupSnapshots_ok htime]
  simp only [Bool.false_eq_true, if_false]
  cases applyGroups cal opts.policy _ <;> rfl

/-- The decision, where no group overflows. -/
theorem forgetPlan_spec (hcal : cal.Lawful) (hempty : opts.policy.isEmpty = false)
    (hlist : repo.listSnapshots = .ok all) (hnamed : ∀ key ∈ opts.snapshots, ∃ s ∈ all, s.key = key)
    (htime : ∀ s ∈ all, -2 ^ 63 ≤ s.snapshot.timeNs ∧ s.snapshot.timeNs < 2 ^ 63)
    (hover : ∀ s ∈ all, s.key ∉ opts.snapshots →
      ¬WithinOverflows opts.policy (groupCandidates all opts.snapshots s.group)) :
    ∃ summary, forgetPlan cal opts all = some (.ok summary) ∧
      ∀ key, key ∈ summary.removed ↔ key ∈ opts.snapshots ∨
        ∃ s ∈ all, s.key = key ∧ s.key ∉ opts.snapshots ∧
          ¬Kept cal opts.policy (groupCandidates all opts.snapshots s.group) s.candidate := by
  obtain ⟨removed, kept, happly, hremoved⟩ : ∃ removed kept, applyGroups cal opts.policy (groupsOf
      ((all.filter fun s => s.key ∉ opts.named).map fun s => (s.group, s.candidate))) =
        some (removed, kept) ∧ ∀ key, key ∈ removed ↔ ∃ cs ∈ groupsOf
          ((all.filter fun s => s.key ∉ opts.named).map fun s => (s.group, s.candidate)),
            ∃ c ∈ cs, c.key = key ∧ ¬Kept cal opts.policy cs c := by
    refine applyGroups_spec hcal (fun cs hcs => ?_) fun cs hcs => ?_
    · obtain ⟨s, hs, hun, rfl⟩ := mem_groupsOf_named.1 hcs
      exact nodup_groupCandidates hlist
    · obtain ⟨s, hs, hun, rfl⟩ := mem_groupsOf_named.1 hcs
      exact hover s hs hun
  refine ⟨⟨opts.named ++ removed, kept⟩, ?_, fun key => ?_⟩
  · rw [forgetPlan_eq hempty hnamed htime, happly]
    rfl
  · rw [List.mem_append, mem_named, hremoved]
    refine or_congr_right ⟨?_, ?_⟩
    · rintro ⟨cs, hcs, c, hc, rfl, hno⟩
      obtain ⟨s, hs, hun, rfl⟩ := mem_groupsOf_named.1 hcs
      obtain ⟨x, hx, rfl⟩ := List.mem_map.1 hc
      simp only [List.mem_filter, decide_eq_true_eq] at hx
      exact ⟨x, hx.1, rfl, hx.2.1, by rwa [hx.2.2]⟩
    · rintro ⟨s, hs, rfl, hun, hno⟩
      refine ⟨_, mem_groupsOf_named.2 ⟨s, hs, hun, rfl⟩, s.candidate, ?_, rfl, hno⟩
      exact List.mem_map_of_mem (List.mem_filter.2 ⟨hs, by simpa using hun⟩)

theorem forgetPlan_eq_none (hcal : cal.Lawful) (hempty : opts.policy.isEmpty = false)
    (hnamed : ∀ key ∈ opts.snapshots, ∃ s ∈ all, s.key = key)
    (htime : ∀ s ∈ all, -2 ^ 63 ≤ s.snapshot.timeNs ∧ s.snapshot.timeNs < 2 ^ 63)
    {s : SnapshotInfo} (hs : s ∈ all) (hun : s.key ∉ opts.snapshots)
    (hover : WithinOverflows opts.policy (groupCandidates all opts.snapshots s.group)) :
    forgetPlan cal opts all = none := by
  rw [forgetPlan_eq hempty hnamed htime,
    applyGroups_eq_none hcal (mem_groupsOf_named.2 ⟨s, hs, hun, rfl⟩) hover]
  rfl

/-- **Forgetting.** It is exact where it does not panic, and it panics where the newest time of a
group less the duration is before the first date. -/
theorem forgetsExactly_iff (hcal : cal.Lawful) (hvalid : opts.policy.validate = .ok ())
    (hempty : opts.policy.isEmpty = false) (hlist : repo.listSnapshots = .ok all)
    (hnamed : ∀ key ∈ opts.snapshots, ∃ s ∈ all, s.key = key)
    (htime : ∀ s ∈ all, -2 ^ 63 ≤ s.snapshot.timeNs ∧ s.snapshot.timeNs < 2 ^ 63) :
    (∃ summary repo', ForgetsExactly cal repo opts all summary repo') ↔
      ∀ s ∈ all, s.key ∉ opts.snapshots →
        ¬WithinOverflows opts.policy (groupCandidates all opts.snapshots s.group) := by
  have hforget : ∀ repo : Repository, repo.listSnapshots = .ok all →
      repo.forget cal opts = (forgetPlan cal opts all).map fun plan => match plan with
        | .error e => (.error e, repo)
        | .ok summary =>
          (.ok summary, if opts.dryRun then repo else repo.deleteSnapshots summary.removed) := by
    intro repo hlist
    unfold forget
    rw [if_neg (by simp [hempty]), hvalid, hlist]
    dsimp only
    cases forgetPlan cal opts all with
    | none => rfl
    | some plan => cases plan <;> rfl
  constructor
  · -- one group whose bound leaves the dates stops the whole forget
    rintro ⟨summary, repo', hexact⟩ s hs hun hover
    have hresult := hexact.result
    rw [hforget repo hlist, forgetPlan_eq_none hcal hempty hnamed htime hs hun hover] at hresult
    cases hresult
  · intro hover
    obtain ⟨summary, hplan, hremoved⟩ := forgetPlan_spec hcal hempty hlist hnamed htime hover
    obtain ⟨hsnapshots, hreplicas, snapshots, replicas, heq⟩ :=
      deleteSnapshots_spec repo summary.removed
    refine ⟨summary, if opts.dryRun then repo else repo.deleteSnapshots summary.removed,
      ?_, hremoved,
      fun key => ?_, fun key => ?_, ?_, fun s hs hun hnewest => ?_, fun snapshots hperm => ?_⟩
    · rw [hforget repo hlist, hplan]
      rfl
    · cases opts.dryRun <;> simp [hsnapshots]
    · cases opts.dryRun <;> simp [hreplicas]
    · cases opts.dryRun
      · exact ⟨snapshots, replicas, heq⟩
      · exact ⟨_, _, rfl⟩
    · rw [hremoved]
      rintro (hnamed | ⟨x, hx, hkey, -, hno⟩)
      · exact hun hnamed
      · obtain rfl := List.inj_on_of_nodup_map (nodup_keys_of_listSnapshots hlist) hx hs hkey
        refine hno (kept_newest hvalid hempty fun c hc => ?_)
        obtain ⟨y, hy, rfl⟩ := List.mem_map.1 hc
        simp only [List.mem_filter, decide_eq_true_eq] at hy
        exact hnewest y hy.1 hy.2.1 hy.2.2
    · exact ⟨_, by rw [hforget _ ((listSnapshots_congr hperm).trans hlist), hplan]; rfl⟩

end Repository

/-- **Retention.** With a valid policy that is not empty, a group is judged exactly where the date
arithmetic is in range for it, and a run is exact where it is so for each of the groups. -/
theorem forget_exact_iff (hcal : cal.Lawful) (hvalid : policy.validate = .ok ())
    (hempty : policy.isEmpty = false) :
    (∀ cs, (cs.map Candidate.key).Nodup →
      (PolicyExact cal policy cs ↔ ¬WithinOverflows policy cs)) ∧
    ∀ (repo : Repository) (opts : ForgetOptions) (all : List SnapshotInfo), opts.policy = policy →
      repo.listSnapshots = .ok all → (∀ key ∈ opts.snapshots, ∃ s ∈ all, s.key = key) →
      (∀ s ∈ all, -2 ^ 63 ≤ s.snapshot.timeNs ∧ s.snapshot.timeNs < 2 ^ 63) →
      ((∃ summary repo', repo.ForgetsExactly cal opts all summary repo') ↔
        ∀ s ∈ all, s.key ∉ opts.snapshots →
          ¬WithinOverflows policy (groupCandidates all opts.snapshots s.group)) := by
  refine ⟨fun cs hcs => policyExact_iff hcal hcs, ?_⟩
  rintro repo opts all rfl hlist hnamed htime
  exact Repository.forgetsExactly_iff hcal hvalid hempty hlist hnamed htime

end Retention

/-! ### The first hours of 1970 -/

/-- The first hour of 1970. -/
def firstHour : Calendar where
  add t d := if t + d ≤ maxDateTime then some (t + d) else none
  sub t d := if minDateTime ≤ t - d then some (t - d) else none
  year _ := 1970
  ordinal _ := 1
  hour _ := 0
  month _ := 1
  isoWeek _ := (1970, 1)

theorem lawful_firstHour : firstHour.Lawful where
  add_eq _ _ := rfl
  sub_eq _ _ := rfl
  hours _ _ _ := le_rfl
  months _ _ _ := le_rfl
  weeks _ _ _ := le_rfl
  ordinal_le _ := show 1 ≤ 366 by decide
  hour_lt _ := show 0 < 24 by decide
  month_le _ := show 1 ≤ 12 by decide
  week_le _ := show 1 ≤ 53 by decide

/-- A repository with a snapshot of the first hour. -/
def oneSnapshot : Repository := (TimedRepository.sampleRepository []).toRepository

theorem listSnapshots_oneSnapshot :
    oneSnapshot.listSnapshots = .ok [⟨⟨1, 0⟩, TimedRepository.sampleSnapshot⟩] :=
  rfl

/-- The first day of 1970. -/
def firstDay : Calendar := { firstHour with hour t := min 23 (t / (3600 * 10 ^ 9)).toNat }

theorem lawful_firstDay : firstDay.Lawful where
  add_eq _ _ := rfl
  sub_eq _ _ := rfl
  hours _ _ hst := Prod.Lex.toLex_mono ⟨le_rfl, Prod.Lex.toLex_mono ⟨le_rfl,
    min_le_min_left _ (Int.toNat_le_toNat (Int.ediv_le_ediv (by norm_num) hst))⟩⟩
  months _ _ _ := le_rfl
  weeks _ _ _ := le_rfl
  ordinal_le := lawful_firstHour.ordinal_le
  hour_lt _ := (min_le_left _ _).trans_lt (by decide)
  month_le := lawful_firstHour.month_le
  week_le := lawful_firstHour.week_le

/-- The snapshots of two clients, by the minutes of the day. -/
def daySnapshots : List Snapshot :=
  [(1, 0), (1, 30), (1, 70), (1, 125), (2, 125), (1, 170)].map fun s =>
    { TimedRepository.sampleSnapshot with clientId := s.1, timeNs := s.2 * (60 * 10 ^ 9) }

/-- A repository with these snapshots. -/
def daysRepository : Repository :=
  { oneSnapshot with
    store.snapshots := Dict.collect (daySnapshots.map fun s => (s.key, .snapshot s.key s)) }

/-- The last two hours with a snapshot, and the last forty minutes. -/
def dayPolicy : RetentionPolicy := { keepHourly := some 2, keepWithin := some (2400 * 10 ^ 9) }

theorem not_withinOverflows_dayPolicy {cs : List Candidate} (h : ∀ x ∈ cs, 0 ≤ x.time) :
    ¬WithinOverflows dayPolicy cs := by
  rintro ⟨d, hd, hne, hlow⟩
  cases hd
  obtain ⟨x, hx⟩ := List.exists_mem_of_ne_nil cs hne
  have hdate : minDateTime ≤ 0 - 2400 * 10 ^ 9 := by decide
  exact absurd (hlow x hx) (not_lt.2 (hdate.trans (Int.sub_le_sub_right (h x hx) _)))

/-- The snapshots of three clients at one time are told apart, and of the snapshots of a day the
named one is deleted, and those that are neither the last ones of the last two hours nor recent. -/
theorem forget_exact_daysRepository :
    PolicyExact firstDay dayPolicy [⟨⟨1, 0⟩, 0⟩, ⟨⟨3, 0⟩, 0⟩, ⟨⟨2, 0⟩, 0⟩] ∧
      ∃ all summary repo', daysRepository.listSnapshots = .ok all ∧
        daysRepository.ForgetsExactly firstDay ⟨[⟨1, 0⟩], dayPolicy, false⟩ all summary repo' ∧
          summary.removed = [⟨1, 0⟩, ⟨1, 125 * (60 * 10 ^ 9)⟩, ⟨1, 30 * (60 * 10 ^ 9)⟩] := by
  obtain ⟨hpolicy, hforget⟩ := @forget_exact_iff firstDay dayPolicy lawful_firstDay (by decide)
    (by decide)
  refine ⟨(hpolicy _ (by decide)).2 (not_withinOverflows_dayPolicy (by decide)), ?_⟩
  have hlist : daysRepository.listSnapshots = .ok (daySnapshots.map fun s => ⟨s.key, s⟩) := rfl
  have hremoved : (daysRepository.forget firstDay ⟨[⟨1, 0⟩], dayPolicy, false⟩).map
      (fun r => r.1.toOption.map ForgetSummary.removed) =
        some (some [⟨1, 0⟩, ⟨1, 125 * (60 * 10 ^ 9)⟩, ⟨1, 30 * (60 * 10 ^ 9)⟩]) := by decide +kernel
  have htimes : ∀ named g, ∀ x ∈ groupCandidates (daySnapshots.map fun s => ⟨s.key, s⟩) named g,
      0 ≤ x.time := by
    intro named g x hx
    obtain ⟨y, hy, rfl⟩ := List.mem_map.1 hx
    have hall : ∀ y ∈ daySnapshots.map fun s => (⟨s.key, s⟩ : SnapshotInfo),
        0 ≤ y.candidate.time := by decide
    exact hall y (List.mem_filter.1 hy).1
  obtain ⟨summary, repo', hexact⟩ := (hforget daysRepository ⟨[⟨1, 0⟩], dayPolicy, false⟩ _ rfl
    hlist (by decide) (by decide)).2 fun s _ _ => not_withinOverflows_dayPolicy (htimes _ _)
  rw [hexact.result] at hremoved
  exact ⟨_, summary, repo', hlist, hexact, Option.some.inj (Option.some.inj hremoved)⟩

/-- **The longest duration** that the command line takes: the newest time less it is no date. -/
theorem not_forget_exact :
    ¬∀ cal : Calendar, cal.Lawful → ∀ policy : RetentionPolicy, policy.validate = .ok () →
      policy.isEmpty = false → ∀ (repo : Repository) (opts : ForgetOptions)
        (all : List SnapshotInfo),
        opts.policy = policy → repo.listSnapshots = .ok all →
        (∀ key ∈ opts.snapshots, ∃ s ∈ all, s.key = key) →
        (∀ s ∈ all, -2 ^ 63 ≤ s.snapshot.timeNs ∧ s.snapshot.timeNs < 2 ^ 63) →
          ∃ summary repo', repo.ForgetsExactly cal opts all summary repo' := by
  intro h
  obtain ⟨summary, repo', hexact⟩ := h firstHour lawful_firstHour
    { keepWithin := some ((2 ^ 64 - 1) * 10 ^ 9) } (by decide) (by decide) oneSnapshot
      ⟨[], _, false⟩ _ rfl
    listSnapshots_oneSnapshot (by simp) (by decide)
  have hnone : (oneSnapshot.forget firstHour
      ⟨[], { keepWithin := some ((2 ^ 64 - 1) * 10 ^ 9) }, false⟩).isSome =
        false := by decide +kernel
  rw [hexact.result] at hnone
  cases hnone

end Kist
