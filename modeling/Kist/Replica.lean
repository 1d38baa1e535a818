import Kist.Backup.Prepare
import Kist.Backup.WalkSpec
import Kist.Ideal
import Kist.Lib.Runs

/-!
# Replicas

A repository may keep a replica of each tree and each snapshot, with the same bytes. Each call of
`write_tree` and `write_snapshot` seals its object anew and puts the two copies at different
moments; other clients may act in between, a client may be stopped, and objects may be lost or
damaged.

Sealing is randomised: what a client seals twice has different bytes, here told apart by a nonce.

* `identical_iff_paired`: the two copies of every object are the same all along a run exactly when
  no call writes one copy beside one that was sealed by another call.
* `writeTree_refines`, `commitSnapshot_refines`: a call that nothing interrupts does what the backup
  does.
-/

namespace Kist

open Checked (bind_eq_ok)

/-- The bytes of a sealed object: what was sealed, and the nonce it was sealed with. -/
structure SealedBytes where
  nonce : ℕ
  content : Sealed
  deriving DecidableEq

/-- A stored copy of an object. It is damaged if its bytes were changed from outside. -/
structure Copy where
  bytes : SealedBytes
  damaged : Bool
  deriving DecidableEq

/-- An object that has a replica. -/
inductive Twofold
  | tree (id : TreeId)
  | snapshot (key : SnapshotKey)
  deriving DecidableEq

/-- The primary object, and its replica `.r1`. -/
inductive Side
  | primary
  | replica
  deriving DecidableEq

/-- The other copy. -/
def Side.other : Side → Side
  | .primary => .replica
  | .replica => .primary

/-- The stored copies. -/
abbrev Copies := Dict (Twofold × Side) Copy

/-- `put_if_absent`. -/
def Copies.putIfAbsent (copies : Copies) (key : Twofold × Side) (bytes : SealedBytes) : Copies :=
  if (copies.lookup key).isSome then copies else copies.insert key ⟨bytes, false⟩

/-- `read_tree_once` on the primary object succeeds. -/
def Copies.readsTree (keys : RepoKeys) (copies : Copies) (id : TreeId) : Bool :=
  match copies.lookup (.tree id, .primary) with
  | none => false
  | some copy =>
    match copy.bytes.content.openTree id with
    | none => false
    | some plain => keys.treeId plain = id && plain.validate.isOk

/-- The loop of `commit_snapshot`: the attempts that are left, and the time of the next one. -/
structure CommitLoop where
  make : Time → Snapshot
  attempts : ℕ
  now : Time

/-- The key and the content of the next attempt. -/
def CommitLoop.snapshot (c : CommitLoop) : Snapshot := c.make c.now

/-- A call of `write_tree` or `write_snapshot`, by the operation it performs next. -/
inductive Pending
  | putTree (id : TreeId) (bytes : SealedBytes)
  | verifyTree (id : TreeId) (bytes : SealedBytes)
  | healTree (id : TreeId) (bytes : SealedBytes)
  | putTreeReplica (id : TreeId) (bytes : SealedBytes)
  | sealSnapshot (c : CommitLoop)
  | putSnapshotReplica (c : CommitLoop) (bytes : SealedBytes)
  | putSnapshot (c : CommitLoop) (bytes : SealedBytes)

/-- A backup: the trees it has written, and the call it is in. -/
structure ClientRun where
  seen : List TreeId := []
  pending : Option Pending := none

/-- The copies, the backups by their clients, and all that was sealed so far, in the order of the
nonces. -/
structure ReplicaState where
  copies : Copies
  runs : ℕ → ClientRun
  sealed : List Sealed

/-- What can happen. -/
inductive ReplicaAction
  /-- A backup calls `write_tree`. -/
  | writeTree (client : ℕ) (tree : Tree)
  /-- A backup calls `commit_snapshot`. -/
  | commit (client : ℕ) (make : Time → Snapshot) (started : Time)
  /-- The call a backup is in goes on. -/
  | next (client : ℕ)
  /-- A backup ends or is interrupted, and the client starts another one. -/
  | restart (client : ℕ)
  /-- An object is lost. -/
  | lose (key : Twofold × Side)
  /-- The bytes of an object are changed from outside. -/
  | damage (key : Twofold × Side) (bytes : SealedBytes)

namespace ReplicaState

/-- No object is there and no backup has begun. -/
def start : ReplicaState := ⟨∅, fun _ => {}, []⟩

variable (keys : RepoKeys) (replicas : ℕ)

/-- The bytes that a call has sealed. -/
def bytesOf : Pending → Option SealedBytes
  | .putTree _ bytes | .verifyTree _ bytes | .healTree _ bytes | .putTreeReplica _ bytes
  | .putSnapshotReplica _ bytes | .putSnapshot _ bytes => some bytes
  | .sealSnapshot _ => none

/-- After the primary object of a tree, `write_tree` goes on to the replica. -/
def afterTree (id : TreeId) (bytes : SealedBytes) : Option Pending :=
  if replicas > 0 then some (.putTreeReplica id bytes) else none

/-- The next operation of a call: the copies after it, and what is left of the call. -/
def perform (copies : Copies) : Pending → Copies × Option Pending
  | .putTree id bytes =>
    if (copies.lookup (.tree id, .primary)).isSome then (copies, some (.verifyTree id bytes))
    else (copies.insert (.tree id, .primary) ⟨bytes, false⟩, afterTree replicas id bytes)
  | .verifyTree id bytes =>
    (copies, if copies.readsTree keys id then afterTree replicas id bytes
      else some (.healTree id bytes))
  | .healTree id bytes =>
    (copies.insert (.tree id, .primary) ⟨bytes, false⟩, afterTree replicas id bytes)
  | .putTreeReplica id bytes => (copies.putIfAbsent (.tree id, .replica) bytes, none)
  | .sealSnapshot c => (copies, some (.sealSnapshot c))
  | .putSnapshotReplica c bytes =>
    (copies.putIfAbsent (.snapshot c.snapshot.key, .replica) bytes, some (.putSnapshot c bytes))
  | .putSnapshot c bytes =>
    if (copies.lookup (.snapshot c.snapshot.key, .primary)).isSome then
      (copies, some (.sealSnapshot { c with now := c.now + 1 }))
    else (copies.insert (.snapshot c.snapshot.key, .primary) ⟨bytes, false⟩, none)

/-- The call after the snapshot of an attempt was sealed. The replica is put first. -/
def afterSeal (c : CommitLoop) (bytes : SealedBytes) : Pending :=
  if replicas > 0 then .putSnapshotReplica c bytes else .putSnapshot c bytes

/-- Replace the state of a client. -/
def setRun (s : ReplicaState) (client : ℕ) (run : ClientRun) : ReplicaState :=
  { s with runs := Function.update s.runs client run }

/-- One more object is sealed. -/
def addSealed (s : ReplicaState) (content : Sealed) : ReplicaState :=
  { s with sealed := s.sealed ++ [content] }

/-- One action, if it is enabled. -/
def step : ReplicaAction → ReplicaState → Option ReplicaState
  | .writeTree client tree, s =>
    if (s.runs client).pending.isNone ∧ tree.validate.isOk then
      let id := keys.treeId tree
      let s' := s.addSealed (.tree id tree)
      if id ∈ (s.runs client).seen then some s'
      else some (s'.setRun client
        ⟨id :: (s.runs client).seen, some (.putTree id ⟨s.sealed.length, .tree id tree⟩)⟩)
    else none
  | .commit client make started, s =>
    if (s.runs client).pending.isNone then
      some (s.setRun client { s.runs client with
        pending := some (.sealSnapshot ⟨make, 3, started⟩) })
    else none
  | .next client, s =>
    match (s.runs client).pending with
    | none => none
    | some (.sealSnapshot ⟨_, 0, _⟩) =>
      some (s.setRun client { s.runs client with pending := none })
    | some (.sealSnapshot ⟨make, attempts + 1, now⟩) =>
      if (make now).validate.isOk ∧ -2 ^ 63 ≤ now ∧ now < 2 ^ 63 then
        let content := Sealed.snapshot (make now).key (make now)
        some ((s.addSealed content).setRun client { s.runs client with
          pending := some (afterSeal replicas ⟨make, attempts, now⟩ ⟨s.sealed.length, content⟩) })
      else some (s.setRun client { s.runs client with pending := none })
    | some p =>
      let (copies, pending) := perform keys replicas s.copies p
      some ({ s with copies }.setRun client { s.runs client with pending })
  | .restart client, s => some (s.setRun client {})
  | .lose key, s => some { s with copies := s.copies.erase key }
  | .damage key bytes, s =>
    if (s.copies.lookup key).isSome then some { s with copies := s.copies.insert key ⟨bytes, true⟩ }
    else none

/-! ### What is to hold, and when it does -/

/-- **Replica identity.** The two copies of an object that nobody damaged have the same bytes. -/
def Identical (s : ReplicaState) : Prop :=
  ∀ x p r, s.copies.lookup (x, .primary) = some p → s.copies.lookup (x, .replica) = some r →
    p.damaged = false → r.damaged = false → p.bytes = r.bytes

/-- What the next operation of a call puts. -/
def puts (copies : Copies) : Pending → Option ((Twofold × Side) × SealedBytes)
  | .putTree id bytes =>
    if (copies.lookup (.tree id, .primary)).isSome then none else some ((.tree id, .primary), bytes)
  | .healTree id bytes => some ((.tree id, .primary), bytes)
  | .putTreeReplica id bytes =>
    if (copies.lookup (.tree id, .replica)).isSome then none else some ((.tree id, .replica), bytes)
  | .putSnapshotReplica c bytes =>
    if (copies.lookup (.snapshot c.snapshot.key, .replica)).isSome then none
    else some ((.snapshot c.snapshot.key, .replica), bytes)
  | .putSnapshot c bytes =>
    if (copies.lookup (.snapshot c.snapshot.key, .primary)).isSome then none
    else some ((.snapshot c.snapshot.key, .primary), bytes)
  | .verifyTree .. | .sealSnapshot _ => none

/-- What an action puts. -/
def writes (s : ReplicaState) : ReplicaAction → Option ((Twofold × Side) × SealedBytes)
  | .next client => (s.runs client).pending.bind (puts s.copies)
  | _ => none

/-- An action puts no copy beside one that another call has sealed: the other copy is missing, is
damaged, or was sealed by the same call. -/
def Paired (a : ReplicaAction) (s : ReplicaState) : Prop :=
  ∀ key bytes, s.writes a = some (key, bytes) →
    ∀ other, s.copies.lookup (key.1, key.2.other) = some other → other.damaged = false →
      other.bytes.nonce = bytes.nonce

/-- The bytes were sealed under their nonce. -/
def IsSealed (s : ReplicaState) (bytes : SealedBytes) : Prop :=
  s.sealed[bytes.nonce]? = some bytes.content

/-- What nobody damaged was sealed by a call. -/
structure Sound (s : ReplicaState) : Prop where
  copies : ∀ key copy, s.copies.lookup key = some copy → copy.damaged = false →
    s.IsSealed copy.bytes
  pending : ∀ client p, (s.runs client).pending = some p → ∀ bytes ∈ bytesOf p, s.IsSealed bytes

variable {keys replicas} {s s' : ReplicaState} {a : ReplicaAction}

theorem IsSealed.eq {x y : SealedBytes} (hx : s.IsSealed x) (hy : s.IsSealed y)
    (h : x.nonce = y.nonce) : x = y := by
  obtain ⟨n, cx⟩ := x
  obtain ⟨m, cy⟩ := y
  obtain rfl : n = m := h
  obtain rfl : cx = cy := Option.some.inj (hx.symm.trans hy)
  rfl

theorem IsSealed.addSealed {x : SealedBytes} (h : s.IsSealed x) (content : Sealed) :
    (s.addSealed content).IsSealed x := by
  unfold IsSealed at h ⊢
  exact (List.getElem?_append_left (List.getElem?_eq_some_iff.1 h).1).trans h

theorem isSealed_addSealed (s : ReplicaState) (content : Sealed) :
    (s.addSealed content).IsSealed ⟨s.sealed.length, content⟩ := by
  simp [IsSealed, ReplicaState.addSealed]

/-- An operation stores what it puts, and nothing else. -/
theorem perform_copies (keys : RepoKeys) (replicas : ℕ) (copies : Copies) (p : Pending) :
    (perform keys replicas copies p).1 =
      match puts copies p with
      | some (key, bytes) => copies.insert key ⟨bytes, false⟩
      | none => copies := by
  cases p <;> simp only [perform, puts, Copies.putIfAbsent] <;> split_ifs <;> rfl

theorem puts_bytes {copies : Copies} {p : Pending} {key : Twofold × Side} {bytes : SealedBytes}
    (h : puts copies p = some (key, bytes)) : bytesOf p = some bytes := by
  cases p <;> simp only [puts] at h <;> (try split_ifs at h) <;> simp_all [bytesOf]

/-- What an action puts was sealed by a call. -/
theorem Sound.writes (hs : s.Sound) {key : Twofold × Side} {bytes : SealedBytes}
    (hw : s.writes a = some (key, bytes)) : s.IsSealed bytes := by
  cases a with
  | next client =>
    obtain ⟨p, hp, hputs⟩ := Option.bind_eq_some_iff.1 hw
    exact hs.pending client p hp bytes (puts_bytes hputs)
  | _ => cases hw

/-- A call keeps to the bytes that it has sealed. -/
theorem perform_bytes {copies : Copies} {p q : Pending}
    (hq : (perform keys replicas copies p).2 = some q) {bytes : SealedBytes}
    (hbytes : bytesOf q = some bytes) : bytesOf p = some bytes := by
  cases p <;> simp only [perform, afterTree] at hq <;> (try split_ifs at hq) <;>
    simp_all only [Option.some.injEq, reduceCtorEq] <;> (try subst hq) <;> simp_all [bytesOf]

/-! ### One step -/

/-- A call that goes on seals the snapshot of its next attempt, gives up, or performs an
operation. -/
theorem step_next {client : ℕ} (h : s' ∈ step keys replicas (.next client) s) :
    ∃ p, (s.runs client).pending = some p ∧
      ((puts s.copies p = none ∧ s' = s.setRun client { s.runs client with pending := none }) ∨
        (∃ content q, puts s.copies p = none ∧ bytesOf q = some ⟨s.sealed.length, content⟩ ∧
          s' = (s.addSealed content).setRun client { s.runs client with pending := some q }) ∨
        s' = { s with copies := (perform keys replicas s.copies p).1 }.setRun client
          { s.runs client with pending := (perform keys replicas s.copies p).2 }) := by
  unfold step at h
  dsimp only at h
  cases hp : (s.runs client).pending with
  | none =>
    rw [hp] at h
    cases h
  | some p =>
    rw [hp] at h
    refine ⟨p, rfl, ?_⟩
    cases p with
    | sealSnapshot c =>
      obtain ⟨make, attempts, now⟩ := c
      cases attempts with
      | zero =>
        cases h
        exact .inl ⟨rfl, rfl⟩
      | succ attempts =>
        dsimp only at h
        split_ifs at h
        · cases h
          refine .inr (.inl ⟨_, _, rfl, ?_, rfl⟩)
          unfold afterSeal
          split_ifs <;> rfl
        · cases h
          exact .inl ⟨rfl, rfl⟩
    | _ =>
      cases h
      exact .inr (.inr rfl)

/-- What an action stores is what it puts; otherwise no undamaged copy is new. -/
theorem step_copies (h : s' ∈ step keys replicas a s) :
    (∀ key bytes, s.writes a = some (key, bytes) →
      s'.copies = s.copies.insert key ⟨bytes, false⟩) ∧
    (s.writes a = none → ∀ key copy, s'.copies.lookup key = some copy → copy.damaged = false →
      s.copies.lookup key = some copy) := by
  cases a with
  | next client =>
    obtain ⟨p, hp, h⟩ := step_next h
    have hwrites : s.writes (.next client) = puts s.copies p := by simp [writes, hp]
    rw [hwrites]
    rcases h with ⟨hnone, rfl⟩ | ⟨content, q, hnone, -, rfl⟩ | rfl
    · exact ⟨fun key bytes hw => by simp [hnone] at hw, fun _ key copy hl _ => hl⟩
    · exact ⟨fun key bytes hw => by simp [hnone] at hw, fun _ key copy hl _ => hl⟩
    · have hcopies := perform_copies keys replicas s.copies p
      refine ⟨fun key bytes hw => ?_, fun hnone key copy hl _ => ?_⟩
      · rw [hw] at hcopies
        exact hcopies
      · rw [hnone] at hcopies
        replace hl : (perform keys replicas s.copies p).1.lookup key = some copy := hl
        rwa [hcopies] at hl
  | writeTree client tree =>
    refine ⟨fun key bytes hw => (by cases hw), fun _ key copy hl _ => ?_⟩
    unfold step at h
    dsimp only at h
    split_ifs at h <;> cases h <;> exact hl
  | commit client make started =>
    refine ⟨fun key bytes hw => (by cases hw), fun _ key copy hl _ => ?_⟩
    unfold step at h
    dsimp only at h
    split_ifs at h
    · cases h
      exact hl
    · cases h
  | restart client =>
    cases h
    exact ⟨fun key bytes hw => (by cases hw), fun _ key copy hl _ => hl⟩
  -- a loss and a damage leave every undamaged copy of the state before
  | lose key =>
    cases h
    refine ⟨fun key bytes hw => (by cases hw), fun _ key' copy hl _ => ?_⟩
    rw [Dict.lookup_erase'] at hl
    split_ifs at hl
    exact hl
  | damage key bytes =>
    unfold step at h
    dsimp only at h
    split_ifs at h
    · cases h
      refine ⟨fun key bytes hw => (by cases hw), fun _ key' copy hl hd => ?_⟩
      rw [Dict.lookup_insert'] at hl
      split_ifs at hl
      · cases hl
        cases hd
      · exact hl
    · cases h

/-- The call that a client is in after a change of its state. -/
theorem setRun_pending {client : ℕ} {run : ClientRun} {c : ℕ} {p : Pending}
    (h : ((s.setRun client run).runs c).pending = some p) :
    run.pending = some p ∨ (s.runs c).pending = some p := by
  rcases eq_or_ne c client with rfl | hne
  · left
    simpa [setRun] using h
  · right
    simpa [setRun, hne] using h

/-- What is sealed stays so, and what a call has is sealed, or was had by a call before. -/
theorem step_pending (h : s' ∈ step keys replicas a s) :
    (∀ x, s.IsSealed x → s'.IsSealed x) ∧
      ∀ client p, (s'.runs client).pending = some p → ∀ x ∈ bytesOf p, s'.IsSealed x ∨
        ∃ c q, (s.runs c).pending = some q ∧ x ∈ bytesOf q := by
  have hold : ∀ {c : ℕ} {p : Pending}, (s.runs c).pending = some p → ∀ x ∈ bytesOf p,
      s'.IsSealed x ∨ ∃ c q, (s.runs c).pending = some q ∧ x ∈ bytesOf q :=
    fun hp x hx => .inr ⟨_, _, hp, hx⟩
  cases a with
  | next client =>
    obtain ⟨p, hp, h⟩ := step_next h
    -- a put that is given up, one that seals its content anew, one that goes on with the bytes it
    -- has
    rcases h with ⟨-, rfl⟩ | ⟨content, q, -, hq, rfl⟩ | rfl
    · refine ⟨fun x hx => hx, fun c q hq => ?_⟩
      exact (setRun_pending hq).elim (by simp) hold
    · refine ⟨fun x hx => hx.addSealed content, fun c r hr x hx => ?_⟩
      rcases setRun_pending hr with hr | hr
      · obtain rfl := Option.some.inj hr
        obtain rfl := Option.some.inj (hq.symm.trans hx)
        exact .inl (isSealed_addSealed s content)
      · exact hold hr x hx
    · refine ⟨fun x hx => hx, fun c q hq x hx => ?_⟩
      rcases setRun_pending hq with hq | hq
      · exact .inr ⟨client, p, hp, perform_bytes hq hx⟩
      · exact hold hq x hx
  | writeTree client tree =>
    unfold step at h
    dsimp only at h
    split_ifs at h
    · cases h
      exact ⟨fun x hx => hx.addSealed _, fun c p hp => hold hp⟩
    · cases h
      refine ⟨fun x hx => hx.addSealed _, fun c p hp x hx => ?_⟩
      rcases setRun_pending hp with hp | hp
      · obtain rfl := Option.some.inj hp
        obtain rfl := Option.some.inj hx
        exact .inl (isSealed_addSealed s _)
      · exact hold hp x hx
    · cases h
  | commit client make started =>
    unfold step at h
    dsimp only at h
    split_ifs at h
    · cases h
      refine ⟨fun x hx => hx, fun c p hp x hx => ?_⟩
      rcases setRun_pending hp with hp | hp
      · obtain rfl := Option.some.inj hp
        cases hx
      · exact hold hp x hx
    · cases h
  | restart client =>
    cases h
    exact ⟨fun x hx => hx, fun c p hp => (setRun_pending hp).elim (by simp) hold⟩
  | lose key =>
    cases h
    exact ⟨fun x hx => hx, fun c p hp => hold hp⟩
  | damage key bytes =>
    unfold step at h
    dsimp only at h
    split_ifs at h
    · cases h
      exact ⟨fun x hx => hx, fun c p hp => hold hp⟩
    · cases h

theorem Sound.step (hs : s.Sound) (h : s' ∈ step keys replicas a s) : s'.Sound := by
  obtain ⟨hmono, hpending⟩ := step_pending h
  obtain ⟨hwrite, hkeep⟩ := step_copies h
  refine ⟨fun key copy hl hd => ?_, fun client p hp x hx => ?_⟩
  · cases hw : s.writes a with
    | none => exact hmono _ (hs.copies key copy (hkeep hw key copy hl hd) hd)
    | some w =>
      rw [hwrite w.1 w.2 hw, Dict.lookup_insert'] at hl
      split_ifs at hl
      · cases hl
        exact hmono _ (hs.writes hw)
      · exact hmono _ (hs.copies key copy hl hd)
  · rcases hpending client p hp x hx with hx | ⟨c, q, hq, hx⟩
    · exact hx
    · exact hmono _ (hs.pending c q hq x hx)

/-- **One step.** From a state in which the copies are the same, a step leads to such a state
exactly when it puts no copy beside one that another call has sealed. -/
theorem identical_step_iff (hs : s.Sound) (hid : s.Identical) (h : s' ∈ step keys replicas a s) :
    s'.Identical ↔ s.Paired a := by
  obtain ⟨hwrite, hkeep⟩ := step_copies h
  cases hw : s.writes a with
  | none =>
    refine iff_of_true (fun x p r hp hr hdp hdr => ?_) fun key bytes hw' => ?_
    · exact hid x p r (hkeep hw _ p hp hdp) (hkeep hw _ r hr hdr) hdp hdr
    · rw [hw] at hw'
      cases hw'
  | some w =>
    obtain ⟨⟨x, side⟩, bytes⟩ := w
    have hcopies := hwrite _ _ hw
    have hsealed := hs.writes hw
    have hlookup : ∀ key, s'.copies.lookup key =
        if key = (x, side) then some ⟨bytes, false⟩ else s.copies.lookup key := fun key => by
      rw [hcopies, Dict.lookup_insert']
    constructor
    · -- the new copy is undamaged, and has the bytes of the other one
      intro hid' key bytes' hw' other hother hd
      obtain ⟨rfl, rfl⟩ : (x, side) = key ∧ bytes = bytes' := by simpa [hw] using hw'
      have hnew := hlookup (x, side)
      have hold := hlookup (x, side.other)
      rw [if_pos rfl] at hnew
      rw [if_neg (by cases side <;> simp [Side.other])] at hold
      cases side with
      | primary =>
        exact congrArg SealedBytes.nonce (hid' x _ _ hnew (hold.trans hother) rfl hd).symm
      | replica => exact congrArg SealedBytes.nonce (hid' x _ _ (hold.trans hother) hnew hd rfl)
    · intro hpaired
      have hsame : ∀ other, s.copies.lookup (x, side.other) = some other → other.damaged = false →
          other.bytes = bytes := fun other hother hd =>
        (hs.copies _ _ hother hd).eq hsealed (hpaired _ _ hw other hother hd)
      intro y p r hp hr hdp hdr
      rw [hlookup] at hp hr
      cases side with
      | primary =>
        rw [if_neg (by simp)] at hr
        by_cases hy : y = x
        · subst hy
          rw [if_pos rfl] at hp
          cases hp
          exact (hsame r hr hdr).symm
        · rw [if_neg (by simp [hy])] at hp
          exact hid y p r hp hr hdp hdr
      | replica =>
        rw [if_neg (by simp)] at hp
        by_cases hy : y = x
        · subst hy
          rw [if_pos rfl] at hr
          cases hr
          exact hsame p hp hdp
        · rw [if_neg (by simp [hy])] at hr
          exact hid y p r hp hr hdp hdr

/-- **Replica identity, exactly when.** Along a run from an empty repository, the two copies of
every object stay the same exactly when no step puts a copy beside one that another call has
sealed. -/
theorem identical_iff_paired (keys : RepoKeys) (replicas : ℕ) (actions : List ReplicaAction) :
    Runs.Always (ReplicaState.step keys replicas) Identical actions start ↔
      Runs.EachStep (ReplicaState.step keys replicas) (fun a s => s.Paired a) actions start := by
  refine Runs.always_iff_eachStep (I := Sound) (fun a s s' hs h => hs.step h)
    (fun a s s' hs hid h => identical_step_iff hs hid h) ⟨?_, ?_⟩ ?_
  · intro key copy hl
    cases hl
  · intro client p hp
    cases hp
  · intro x p r hp
    cases hp

/-- A backup is interrupted after it has put the tree of an empty directory; the next one finds the
tree and puts a replica that it has sealed anew. -/
def interrupted : List ReplicaAction :=
  [.writeTree 0 (.new [] none), .next 0, .restart 0, .writeTree 0 (.new [] none), .next 0, .next 0,
    .next 0]

theorem not_identical_interrupted :
    ¬∀ actions, Runs.Always (ReplicaState.step .ideal 1) Identical actions start := by
  intro h
  have hend : (Runs.last (ReplicaState.step .ideal 1) interrupted start).map (fun s =>
      (s.copies.lookup (.tree (RepoKeys.ideal.treeId (.new [] none)), .primary),
        s.copies.lookup (.tree (RepoKeys.ideal.treeId (.new [] none)), .replica))) =
      some (some ⟨⟨0, .tree (RepoKeys.ideal.treeId (.new [] none)) (.new [] none)⟩, false⟩,
        some ⟨⟨1, .tree (RepoKeys.ideal.treeId (.new [] none)) (.new [] none)⟩, false⟩) := by
    decide +kernel
  obtain ⟨s, hs, hcopies⟩ := Option.map_eq_some_iff.1 hend
  obtain ⟨hp, hr⟩ := Prod.mk.inj hcopies
  exact absurd ((h interrupted).last hs _ _ _ hp hr rfl rfl) (by simp)

/-! ### Calls that nothing interrupts -/

/-- The copies hold what a storage without nonces holds. -/
structure Matches (copies : Copies) (store : Storage) : Prop where
  trees : ∀ id, (copies.lookup (.tree id, .primary)).map (fun c => c.bytes.content) =
    store.trees.lookup id
  treeReplicas : ∀ id, (copies.lookup (.tree id, .replica)).map (fun c => c.bytes.content) =
    store.treeReplicas.lookup id
  snapshots : ∀ key, (copies.lookup (.snapshot key, .primary)).map (fun c => c.bytes.content) =
    store.snapshots.lookup key
  snapshotReplicas : ∀ key, (copies.lookup (.snapshot key, .replica)).map
    (fun c => c.bytes.content) = store.snapshotReplicas.lookup key

/-- The call a client is in goes on for some operations. -/
def Goes (keys : RepoKeys) (replicas client : ℕ) (s s' : ReplicaState) : Prop :=
  ∃ n, Runs.last (ReplicaState.step keys replicas) (List.replicate n (.next client)) s = some s'

section Refines

variable {client : ℕ} {s'' : ReplicaState} {copies : Copies} {store : Storage} {bytes : SealedBytes}

theorem Goes.refl (s : ReplicaState) : Goes keys replicas client s s := ⟨0, rfl⟩

theorem Goes.trans (h : Goes keys replicas client s s') (h' : Goes keys replicas client s' s'') :
    Goes keys replicas client s s'' := by
  obtain ⟨m, hm⟩ := h
  obtain ⟨n, hn⟩ := h'
  refine ⟨m + n, ?_⟩
  rw [List.replicate_add, Runs.last_append, hm]
  exact hn

theorem Goes.step (h : ReplicaState.step keys replicas (.next client) s = some s') :
    Goes keys replicas client s s' := ⟨1, by simp [Runs.last, h]⟩

/-- A call performs its next operation. -/
theorem goes_perform (keys : RepoKeys) (replicas : ℕ) {p : Pending}
    (hp : (s.runs client).pending = some p)
    (hseal : ∀ c, p ≠ .sealSnapshot c) :
    ∃ s', Goes keys replicas client s s' ∧ s'.copies = (perform keys replicas s.copies p).1 ∧
      s'.runs client = ⟨(s.runs client).seen, (perform keys replicas s.copies p).2⟩ := by
  refine ⟨{ s with copies := (perform keys replicas s.copies p).1 }.setRun client
    { s.runs client with pending := (perform keys replicas s.copies p).2 }, .step ?_, rfl, by
      simp [setRun]⟩
  unfold ReplicaState.step
  dsimp only
  rw [hp]
  cases p with
  | sealSnapshot c => exact absurd rfl (hseal c)
  | _ => rfl

/-- The replica of a tree, where replicas are kept. -/
theorem goes_afterTree (keys : RepoKeys) {id : TreeId}
    (hp : (s.runs client).pending = afterTree replicas id bytes) :
    ∃ s', Goes keys replicas client s s' ∧ s'.copies =
        (if replicas > 0 then s.copies.putIfAbsent (.tree id, .replica) bytes else s.copies) ∧
      s'.runs client = ⟨(s.runs client).seen, none⟩ := by
  unfold afterTree at hp
  by_cases hr : replicas > 0
  · rw [if_pos hr] at hp ⊢
    exact goes_perform keys replicas hp (by simp)
  · rw [if_neg hr] at hp ⊢
    exact ⟨s, .refl s, rfl, by rw [← hp]⟩

/-- The two copies of a tree. -/
theorem goes_putTree (keys : RepoKeys) (replicas : ℕ) {id : TreeId}
    (hp : (s.runs client).pending = some (.putTree id bytes)) :
    ∃ s' copies, Goes keys replicas client s s' ∧
      copies = (if s.copies.readsTree keys id then s.copies
        else s.copies.insert (.tree id, .primary) ⟨bytes, false⟩) ∧
      s'.copies = (if replicas > 0 then copies.putIfAbsent (.tree id, .replica) bytes else copies) ∧
      s'.runs client = ⟨(s.runs client).seen, none⟩ := by
  obtain ⟨s₁, hgo₁, hc₁, hr₁⟩ := goes_perform keys replicas hp (by simp)
  unfold perform at hc₁ hr₁
  dsimp only at hc₁ hr₁
  -- there is a primary already: it is read back, and written over only where it does not read
  by_cases hthere : (s.copies.lookup (.tree id, .primary)).isSome
  · rw [if_pos hthere] at hc₁ hr₁
    obtain ⟨s₂, hgo₂, hc₂, hr₂⟩ := goes_perform keys replicas
      (congrArg ClientRun.pending hr₁) (by simp)
    rw [hr₁] at hr₂
    rw [hc₁] at hc₂ hr₂
    unfold perform at hc₂ hr₂
    dsimp only at hc₂ hr₂
    by_cases hreads : s.copies.readsTree keys id = true
    · rw [if_pos hreads] at hr₂
      obtain ⟨s₃, hgo₃, hc₃, hr₃⟩ := goes_afterTree keys (congrArg ClientRun.pending hr₂)
      refine ⟨s₃, s.copies, hgo₁.trans (hgo₂.trans hgo₃), (if_pos hreads).symm, ?_, ?_⟩
      · rw [hc₃, hc₂]
      · rw [hr₃, hr₂]
    · rw [if_neg hreads] at hr₂
      obtain ⟨s₃, hgo₃, hc₃, hr₃⟩ := goes_perform keys replicas
        (congrArg ClientRun.pending hr₂) (by simp)
      obtain ⟨s₄, hgo₄, hc₄, hr₄⟩ := goes_afterTree keys (congrArg ClientRun.pending hr₃)
      refine ⟨s₄, _, hgo₁.trans (hgo₂.trans (hgo₃.trans hgo₄)), (if_neg hreads).symm, ?_, ?_⟩
      · rw [hc₄, hc₃, hc₂]
        rfl
      · rw [hr₄, hr₃, hr₂]
  · rw [if_neg hthere] at hc₁ hr₁
    have hreads : ¬s.copies.readsTree keys id = true := by
      unfold Copies.readsTree
      rw [Option.not_isSome_iff_eq_none.1 hthere]
      simp
    obtain ⟨s₂, hgo₂, hc₂, hr₂⟩ := goes_afterTree keys (congrArg ClientRun.pending hr₁)
    refine ⟨s₂, _, hgo₁.trans hgo₂, (if_neg hreads).symm, ?_, ?_⟩
    · rw [hc₂, hc₁]
    · rw [hr₂, hr₁]

/-- A tree reads back from the copies exactly when it does from the storage. -/
theorem Matches.readsTree_iff {repo : Repository} (h : Matches copies repo.store) (id : TreeId) :
    copies.readsTree repo.keys id = true ↔ ∃ t, repo.readTreeOnce (.tree id) id = .ok t := by
  unfold Copies.readsTree Repository.readTreeOnce
  rw [show repo.store.getSealed (.tree id) = repo.store.trees.lookup id from rfl, ← h.trees id]
  cases copies.lookup (.tree id, .primary) with
  | none => simp
  | some copy =>
    simp only [Option.map_some]
    cases copy.bytes.content.openTree id with
    | none => simp
    | some plain =>
      by_cases hid : repo.keys.treeId plain = id
      · cases hv : plain.validate <;> simp [hid, hv, Except.isOk, Except.toBool]
      · simp [hid]

theorem Matches.putTree (h : Matches copies store) (id : TreeId) :
    Matches (copies.insert (.tree id, .primary) ⟨bytes, false⟩)
      { store with trees := store.trees.insert id bytes.content } where
  trees id' := by
    rw [Dict.lookup_insert', Dict.lookup_insert', ← h.trees]
    by_cases hid : id' = id <;> simp [hid]
  treeReplicas id' := by
    rw [Dict.lookup_insert', ← h.treeReplicas, if_neg (by simp)]
  snapshots key := by
    rw [Dict.lookup_insert', ← h.snapshots, if_neg (by simp)]
  snapshotReplicas key := by
    rw [Dict.lookup_insert', ← h.snapshotReplicas, if_neg (by simp)]

theorem Matches.putTreeReplica (h : Matches copies store) (id : TreeId) :
    Matches (copies.insert (.tree id, .replica) ⟨bytes, false⟩)
      { store with treeReplicas := store.treeReplicas.insert id bytes.content } where
  trees id' := by
    rw [Dict.lookup_insert', ← h.trees, if_neg (by simp)]
  treeReplicas id' := by
    rw [Dict.lookup_insert', Dict.lookup_insert', ← h.treeReplicas]
    by_cases hid : id' = id <;> simp [hid]
  snapshots key := by
    rw [Dict.lookup_insert', ← h.snapshots, if_neg (by simp)]
  snapshotReplicas key := by
    rw [Dict.lookup_insert', ← h.snapshotReplicas, if_neg (by simp)]

theorem Matches.backupPutTree {b : Backup} {content : Sealed} (h : Matches copies b.repo.store)
    (id : TreeId) (hc : bytes.content = content) :
    Matches (if copies.readsTree b.repo.keys id then copies
      else copies.insert (.tree id, .primary) ⟨bytes, false⟩)
        (b.putTree id content).repo.store := by
  subst hc
  unfold Backup.putTree
  by_cases hreads : copies.readsTree b.repo.keys id = true
  · obtain ⟨t, ht⟩ := (h.readsTree_iff id).1 hreads
    rw [if_pos hreads, ht]
    exact h
  · rw [if_neg hreads]
    cases ht : b.repo.readTreeOnce (.tree id) id with
    | ok t => exact absurd ((h.readsTree_iff id).2 ⟨t, ht⟩) hreads
    | error e => exact h.putTree id

theorem Matches.backupPutTreeReplica {b : Backup} {content : Sealed}
    (h : Matches copies b.repo.store) (id : TreeId) (hc : bytes.content = content) :
    Matches (if b.repo.config.replicas > 0 then copies.putIfAbsent (.tree id, .replica) bytes
      else copies) (b.putTreeReplica id content).repo.store := by
  subst hc
  unfold Backup.putTreeReplica
  by_cases hr : b.repo.config.replicas > 0
  · rw [if_pos hr]
    unfold Copies.putIfAbsent
    cases hthere : copies.lookup (.tree id, .replica) with
    | none =>
      rw [if_neg (by simp), if_pos ⟨hr, by rw [← h.treeReplicas, hthere]; rfl⟩]
      exact h.putTreeReplica id
    | some copy =>
      have hsome : ¬(b.repo.store.treeReplicas.lookup id).isNone = true := by
        rw [← h.treeReplicas, hthere]
        simp
      rw [if_pos (by simp), if_neg (fun hc => hsome hc.2)]
      exact h
  · rw [if_neg hr, if_neg (fun hc => hr hc.1)]
    exact h

/-- **A call of `write_tree`** that nothing interrupts leaves what the backup leaves. -/
theorem writeTree_refines {b b' : Backup} {tree : Tree} {id : TreeId}
    (h : Matches s.copies b.repo.store) (hrun : s.runs client = ⟨b.seenTrees, none⟩)
    (hw : b.writeTree tree = .ok (id, b')) :
    ∃ s₁ s', ReplicaState.step b.repo.keys b.repo.config.replicas (.writeTree client tree) s =
        some s₁ ∧ Goes b.repo.keys b.repo.config.replicas client s₁ s' ∧
      Matches s'.copies b'.repo.store ∧ s'.runs client = ⟨b'.seenTrees, none⟩ := by
  have hv : tree.validate.isOk = true := by
    rw [(Backup.writeTree_cases hw).2.1]
    rfl
  have henabled : (s.runs client).pending.isNone = true ∧ tree.validate.isOk = true :=
    ⟨by rw [hrun]; rfl, hv⟩
  have hseen : (s.runs client).seen = b.seenTrees := by rw [hrun]
  obtain ⟨⟨id', content⟩, hseal, hw⟩ := bind_eq_ok.1 hw
  obtain ⟨hpair, -⟩ := Backup.sealTree_ok hseal
  obtain ⟨rfl, rfl⟩ := Prod.mk.inj hpair
  unfold ReplicaState.step
  dsimp only at hw ⊢
  rw [if_pos henabled, hseen]
  -- a tree of this run is not written a second time
  by_cases hmem : b.repo.keys.treeId tree ∈ b.seenTrees
  · rw [if_pos hmem] at hw ⊢
    cases hw
    exact ⟨_, _, rfl, .refl _, h, hrun⟩
  rw [if_neg hmem] at hw ⊢
  set id := b.repo.keys.treeId tree with hid
  set b₀ : Backup := { b with seenTrees := id :: b.seenTrees } with hb₀
  have hstart : ((s.addSealed (.tree id tree)).setRun client ⟨id :: b.seenTrees,
      some (.putTree id ⟨s.sealed.length, .tree id tree⟩)⟩).runs client =
        ⟨id :: b.seenTrees, some (.putTree id ⟨s.sealed.length, .tree id tree⟩)⟩ := by
    simp [setRun]
  -- the primary is healed or put, then the replica: the two puts of `write_tree` in order
  obtain ⟨s', copies, hgo, rfl, hcopies, hr⟩ := goes_putTree b.repo.keys b.repo.config.replicas
    (congrArg ClientRun.pending hstart)
  rw [hstart] at hr
  have h₁ : Matches (if s.copies.readsTree b.repo.keys id then s.copies
      else s.copies.insert (.tree id, .primary) ⟨⟨s.sealed.length, .tree id tree⟩, false⟩)
        (b₀.putTree id (.tree id tree)).repo.store :=
    Matches.backupPutTree (b := b₀) h id rfl
  have h₂ : Matches s'.copies ((b₀.putTree id (.tree id tree)).putTreeReplica id
      (.tree id tree)).repo.store := by
    rw [hcopies, show b.repo.config = (b₀.putTree id (.tree id tree)).repo.config by simp [hb₀]]
    exact h₁.backupPutTreeReplica id rfl
  have hrun' : s'.runs client =
      ⟨((b₀.putTree id (.tree id tree)).putTreeReplica id (.tree id tree)).seenTrees, none⟩ := by
    simpa [hb₀] using hr
  refine ⟨_, s', rfl, hgo, ?_⟩
  split_ifs at hw
  · obtain ⟨-, rfl⟩ := Prod.mk.inj (Except.ok.inj hw)
    exact ⟨⟨h₂.trees, h₂.treeReplicas, h₂.snapshots, h₂.snapshotReplicas⟩, hrun'⟩
  · obtain ⟨-, rfl⟩ := Prod.mk.inj (Except.ok.inj hw)
    exact ⟨h₂, hrun'⟩

theorem Matches.putSnapshot (h : Matches copies store) (key : SnapshotKey) :
    Matches (copies.insert (.snapshot key, .primary) ⟨bytes, false⟩)
      { store with snapshots := store.snapshots.insert key bytes.content } where
  trees id := by
    rw [Dict.lookup_insert', ← h.trees, if_neg (by simp)]
  treeReplicas id := by
    rw [Dict.lookup_insert', ← h.treeReplicas, if_neg (by simp)]
  snapshots key' := by
    rw [Dict.lookup_insert', Dict.lookup_insert', ← h.snapshots]
    by_cases hkey : key' = key <;> simp [hkey]
  snapshotReplicas key' := by
    rw [Dict.lookup_insert', ← h.snapshotReplicas, if_neg (by simp)]

theorem Matches.putSnapshotReplica {repo : Repository} {content : Sealed}
    (h : Matches copies repo.store) (key : SnapshotKey) (hc : bytes.content = content) :
    Matches (if repo.config.replicas > 0 then copies.putIfAbsent (.snapshot key, .replica) bytes
      else copies) (repo.putSnapshotReplica key content).store := by
  subst hc
  unfold Repository.putSnapshotReplica
  by_cases hr : repo.config.replicas > 0
  · rw [if_pos hr]
    unfold Copies.putIfAbsent
    cases hthere : copies.lookup (.snapshot key, .replica) with
    | none =>
      rw [if_neg (by simp), if_pos ⟨hr, by rw [← h.snapshotReplicas, hthere]; rfl⟩]
      refine ⟨fun id => ?_, fun id => ?_, fun key' => ?_, fun key' => ?_⟩
      · rw [Dict.lookup_insert', if_neg (by simp)]
        exact h.trees id
      · rw [Dict.lookup_insert', if_neg (by simp)]
        exact h.treeReplicas id
      · rw [Dict.lookup_insert', if_neg (by simp)]
        exact h.snapshots key'
      · rw [Dict.lookup_insert', Dict.lookup_insert', ← h.snapshotReplicas]
        by_cases hkey : key' = key <;> simp [hkey]
    | some copy =>
      have hsome : ¬(repo.store.snapshotReplicas.lookup key).isNone = true := by
        rw [← h.snapshotReplicas, hthere]
        simp
      rw [if_pos (by simp), if_neg (fun hc => hsome hc.2)]
      exact h
  · rw [if_neg hr, if_neg (fun hc => hr hc.1)]
    exact h

/-- The replica of a snapshot, where replicas are kept. -/
theorem goes_afterSeal (keys : RepoKeys) {c : CommitLoop}
    (hp : (s.runs client).pending = some (afterSeal replicas c bytes)) :
    ∃ s', Goes keys replicas client s s' ∧ s'.copies = (if replicas > 0 then
        s.copies.putIfAbsent (.snapshot c.snapshot.key, .replica) bytes else s.copies) ∧
      s'.runs client = ⟨(s.runs client).seen, some (.putSnapshot c bytes)⟩ := by
  unfold afterSeal at hp
  by_cases hr : replicas > 0
  · rw [if_pos hr] at hp ⊢
    exact goes_perform keys replicas hp (by simp)
  · rw [if_neg hr] at hp ⊢
    exact ⟨s, .refl s, rfl, by rw [← hp]⟩

/-- **The loop of `commit_snapshot`** that nothing interrupts leaves what the commit leaves. -/
theorem commitSnapshot_refines {make : Time → Snapshot} :
    ∀ (attempts : ℕ) (now : Time) (s : ReplicaState) (repo : Repository),
      Matches s.copies repo.store →
      (s.runs client).pending = some (.sealSnapshot ⟨make, attempts, now⟩) →
        ∃ s', Goes repo.keys repo.config.replicas client s s' ∧
          Matches s'.copies (Repository.commitSnapshot make attempts now repo).2.store ∧
          (s'.runs client).pending = none := by
  intro attempts
  induction attempts with
  | zero =>
    intro now s repo h hp
    refine ⟨s.setRun client { s.runs client with pending := none }, .step ?_, h, by simp [setRun]⟩
    unfold ReplicaState.step
    dsimp only
    rw [hp]
  | succ attempts ih =>
    intro now s repo h hp
    -- an attempt that seals nothing ends the call
    have hgiveUp : ¬((make now).validate.isOk = true ∧ -2 ^ 63 ≤ now ∧ now < 2 ^ 63) →
        ∃ s', Goes repo.keys repo.config.replicas client s s' ∧ Matches s'.copies repo.store ∧
          (s'.runs client).pending = none := fun hnot => by
      refine ⟨s.setRun client { s.runs client with pending := none }, .step ?_, h, by simp [setRun]⟩
      unfold ReplicaState.step
      dsimp only
      rw [hp]
      dsimp only
      rw [if_neg hnot]
    by_cases hrange : -2 ^ 63 ≤ now ∧ now < 2 ^ 63
    swap
    · unfold Repository.commitSnapshot
      dsimp only
      rw [if_pos hrange]
      exact hgiveUp fun hc => hrange hc.2
    cases hv : (make now).validate with
    | error e =>
      unfold Repository.commitSnapshot Repository.writeSnapshot
      dsimp only
      rw [if_neg (not_not.2 hrange), hv]
      refine hgiveUp fun hc => ?_
      rw [hv] at hc
      exact absurd hc.1 (by simp [Except.isOk, Except.toBool])
    | ok u =>
      set content := Sealed.snapshot (make now).key (make now) with hcontent
      set c : CommitLoop := ⟨make, attempts, now⟩ with hc
      set s₁ := (s.addSealed content).setRun client { s.runs client with
        pending := some (afterSeal repo.config.replicas c ⟨s.sealed.length, content⟩) } with hs₁
      set repo₁ := repo.putSnapshotReplica (make now).key content with hrepo₁
      have hsame : repo₁.keys = repo.keys ∧ repo₁.config = repo.config := by
        obtain ⟨replicas, heq⟩ := repo.putSnapshotReplica_eq (make now).key content
        rw [hrepo₁, heq]
        exact ⟨rfl, rfl⟩
      have hgo₁ : Goes repo.keys repo.config.replicas client s s₁ := by
        refine .step ?_
        unfold ReplicaState.step
        dsimp only
        rw [hp]
        dsimp only
        rw [if_pos ⟨by rw [hv]; rfl, hrange⟩]
      have hp₁ : (s₁.runs client).pending =
          some (afterSeal repo.config.replicas c ⟨s.sealed.length, content⟩) := by
        simp [hs₁, setRun]
      obtain ⟨s₂, hgo₂, hc₂, hr₂⟩ := goes_afterSeal repo.keys hp₁
      have h₂ : Matches s₂.copies repo₁.store := by
        rw [hc₂]
        exact h.putSnapshotReplica (make now).key rfl
      obtain ⟨s₃, hgo₃, hc₃, hr₃⟩ := goes_perform repo.keys repo.config.replicas
        (congrArg ClientRun.pending hr₂) (by simp)
      have hthere : (s₂.copies.lookup (.snapshot c.snapshot.key, .primary)).isSome =
          (repo₁.store.snapshots.lookup (make now).key).isSome := by
        rw [← h₂.snapshots (make now).key, Option.isSome_map]
        rfl
      unfold perform at hc₃ hr₃
      dsimp only at hc₃ hr₃
      by_cases hex : (repo₁.store.snapshots.lookup (make now).key).isSome = true
      · -- the key is taken: the next attempt
        rw [if_pos (hthere.trans hex)] at hc₃ hr₃
        have hcommit : Repository.commitSnapshot make (attempts + 1) now repo =
            Repository.commitSnapshot make attempts (now + 1) repo₁ := by
          rw [Repository.commitSnapshot]
          simp only [hrange, Repository.writeSnapshot, hv, ← hcontent, ← hrepo₁, hex]
          rfl
        obtain ⟨s₄, hgo₄, h₄, hr₄⟩ := ih (now + 1) s₃ repo₁ (by rw [hc₃]; exact h₂)
          (congrArg ClientRun.pending hr₃)
        rw [hsame.1, hsame.2] at hgo₄
        rw [hcommit]
        exact ⟨s₄, hgo₁.trans (hgo₂.trans (hgo₃.trans hgo₄)), h₄, hr₄⟩
      · rw [if_neg (fun hc => hex (hthere.symm.trans hc))] at hc₃ hr₃
        have hcommit : (Repository.commitSnapshot make (attempts + 1) now repo).2.store =
            { repo₁.store with
              snapshots := repo₁.store.snapshots.insert (make now).key content } := by
          rw [Repository.commitSnapshot]
          simp only [hrange, Repository.writeSnapshot, hv, ← hcontent, ← hrepo₁, hex]
          rfl
        rw [hcommit]
        refine ⟨s₃, hgo₁.trans (hgo₂.trans hgo₃), ?_, congrArg ClientRun.pending hr₃⟩
        rw [hc₃]
        exact h₂.putSnapshot (make now).key

end Refines

end ReplicaState
end Kist
