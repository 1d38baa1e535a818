import Mathlib
import Kist.Restore.CallSpec

/-!
# How far the metadata was set

The calls that set the attributes, the owner, the time and the mode of a file or directory come one
after the other, and any one of them fails.

* `MetaEnds`: which one fails, and what is set then.
* `applyMeta_spec`: this is what `apply_meta` reports and leaves.
* `TargetMeta.restored`: all that an entry records.
-/

namespace Kist

open Std.Do

set_option mvcgen.warning false

/-! ### Attributes, owner, time and mode -/

/-- The attributes that are set: the ones of users. -/
def userXattrs (xattrs : List (Bytes × Bytes)) : List (Bytes × Bytes) :=
  xattrs.filter fun x => "user.".toUTF8.toList <+: x.1

/-- An owner that can be set: none of its ids means no change. -/
def settable (owner : ℕ × ℕ) : Bool := ¬(owner.1 = unchangedId ∨ owner.2 = unchangedId)

theorem checkOwnerIds_ok_iff {path : RelPath} {owner : ℕ × ℕ} :
    checkOwnerIds path owner = .ok () ↔ settable owner = true := by
  simp [checkOwnerIds, settable]

/-- The restoring user is root, and sets the recorded owner. -/
def setsOwner (asRoot : Bool) (entry : Entry) : Bool := asRoot && (ownerOfEntry entry).any settable

/-- The restoring user is root, and cannot set the recorded owner. -/
def refusesOwner (asRoot : Bool) (entry : Entry) : Bool :=
  asRoot && (ownerOfEntry entry).any fun owner => !settable owner

section Owner

variable {asRoot : Bool} {path : RelPath} {entry : Entry} {owner : ℕ × ℕ}

theorem setsOwner_of_ok (hroot : asRoot = true) (howner : ownerOfEntry entry = some owner)
    (h : checkOwnerIds path owner = .ok ()) :
    setsOwner asRoot entry = true ∧ refusesOwner asRoot entry = false := by
  simp [setsOwner, refusesOwner, hroot, howner, checkOwnerIds_ok_iff.1 h]

theorem setsOwner_of_error {e : CoreError} (hroot : asRoot = true)
    (howner : ownerOfEntry entry = some owner) (h : checkOwnerIds path owner = .error e) :
    setsOwner asRoot entry = false ∧ refusesOwner asRoot entry = true := by
  have hno : settable owner = false := Bool.eq_false_iff.2 fun hyes => by
    rw [checkOwnerIds_ok_iff.2 hyes] at h
    cases h
  simp [setsOwner, refusesOwner, hroot, howner, hno]

theorem setsOwner_of_none (h : asRoot = true → ownerOfEntry entry = none) :
    setsOwner asRoot entry = false ∧ refusesOwner asRoot entry = false := by
  cases asRoot with
  | false => exact ⟨rfl, rfl⟩
  | true => simp [setsOwner, refusesOwner, h rfl]

end Owner

namespace TargetMeta

variable {asRoot : Bool} {path : RelPath} {entry : Entry} {m : TargetMeta} {x : Bytes × Bytes}
  {xs : List (Bytes × Bytes)}

/-- The owner is set, where the restoring user does that. -/
def setOwner (m : TargetMeta) (asRoot : Bool) (entry : Entry) : TargetMeta :=
  if setsOwner asRoot entry then { m with owner := ownerOfEntry entry } else m

theorem setOwner_of_not (h : setsOwner asRoot entry = false) : m.setOwner asRoot entry = m :=
  if_neg (Bool.eq_false_iff.1 h)

/-- The time is set, and then the mode. -/
def setTimes (m : TargetMeta) (asRoot restored : Bool) (entry : Entry) : TargetMeta :=
  match entry.mtimeNs with
  | none => m
  | some mtimeNs =>
    { m with mtimeNs := some mtimeNs }.applyMode
      (modeToApply (metaOfEntry entry).mode asRoot restored)

/-- All that an entry records is set; where neither attributes nor a time are recorded, this is
nothing. -/
def restored (m : TargetMeta) (asRoot : Bool) (entry : Entry) : TargetMeta :=
  if entry.xattrs.isNone ∧ entry.mtimeNs.isNone then m
  else
    let m := m.setXattrs entry.xattrs
    let owner := if asRoot then ownerOfEntry entry else none
    { m with owner := owner.or m.owner }.setTimes asRoot owner.isSome entry

theorem setXattrs_cons (hx : "user.".toUTF8.toList <+: x.1) :
    m.setXattrs (some (x :: xs)) =
      { m with xattrs := m.xattrs.filter (fun y : Bytes × Bytes => y.1 ≠ x.1) ++ [x] }.setXattrs
        (some xs) := by
  simp only [setXattrs, Option.getD_some, List.foldl_cons, if_pos hx]

theorem setXattrs_cons_of_not (hx : ¬"user.".toUTF8.toList <+: x.1) :
    m.setXattrs (some (x :: xs)) = m.setXattrs (some xs) := by
  simp only [setXattrs, Option.getD_some, List.foldl_cons, if_neg hx]

theorem applyMeta_eq (m : TargetMeta) (asRoot : Bool) (path : RelPath) (entry : Entry) :
    (m.applyMeta asRoot path entry).2 =
      ((m.setXattrs entry.xattrs).setOwner asRoot entry).setTimes asRoot (setsOwner asRoot entry)
        entry := by
  unfold applyMeta setOwner setTimes
  cases asRoot with
  | false => cases entry.mtimeNs <;> rfl
  | true =>
    cases howner : ownerOfEntry entry with
    | none =>
      have hsets := (@setsOwner_of_none true entry fun _ => howner).1
      cases entry.mtimeNs <;> simp [applyOwner, hsets]
    | some owner =>
      cases h : checkOwnerIds path owner with
      | error e =>
        have hsets := (setsOwner_of_error rfl howner h).1
        cases entry.mtimeNs <;> simp [applyOwner, h, hsets]
      | ok =>
        have hsets := (setsOwner_of_ok rfl howner h).1
        cases entry.mtimeNs <;> simp [applyOwner, h, hsets]

end TargetMeta

/-- How far the calls that set metadata come, the first of which is call `c`: whether the
attributes, the time and the mode are set, whether the owner is, and the metadata then. -/
inductive MetaEnds (faults : CallFaults) (c : ℕ) (asRoot : Bool) (entry : Entry) (m : TargetMeta) :
    Bool → Bool → TargetMeta → Prop
  | xattr {j : ℕ} (hj : j < (userXattrs (entry.xattrs.getD [])).length)
      (fails : faults.fault = some (c + j)) :
      MetaEnds faults c asRoot entry m false true
        (m.setXattrs (some ((userXattrs (entry.xattrs.getD [])).take j)))
  | owner (sets : setsOwner asRoot entry)
      (fails : faults.fault = some (c + (userXattrs (entry.xattrs.getD [])).length)) :
      MetaEnds faults c asRoot entry m true false
        ((m.setXattrs entry.xattrs).setTimes asRoot false entry)
  | time (recorded : entry.mtimeNs.isSome)
      (fails : faults.fault =
        some (c + (userXattrs (entry.xattrs.getD [])).length + (setsOwner asRoot entry).toNat)) :
      MetaEnds faults c asRoot entry m false (!refusesOwner asRoot entry)
        ((m.setXattrs entry.xattrs).setOwner asRoot entry)
  | mode {mtimeNs : ℤ} (recorded : entry.mtimeNs = some mtimeNs)
      (applied : modeToApply (metaOfEntry entry).mode asRoot (setsOwner asRoot entry) ≠ 0)
      (fails : faults.fault =
        some (c + (userXattrs (entry.xattrs.getD [])).length +
          (setsOwner asRoot entry).toNat + 1)) :
      MetaEnds faults c asRoot entry m false (!refusesOwner asRoot entry)
        { (m.setXattrs entry.xattrs).setOwner asRoot entry with mtimeNs := some mtimeNs }
  | all (fails : ¬faults.Hits c ((userXattrs (entry.xattrs.getD [])).length +
        (setsOwner asRoot entry).toNat + entry.mtimeNs.elim 0 fun _ =>
          if modeToApply (metaOfEntry entry).mode asRoot (setsOwner asRoot entry) = 0
            then 1 else 2)) :
      MetaEnds faults c asRoot entry m true (!refusesOwner asRoot entry)
        (((m.setXattrs entry.xattrs).setOwner asRoot entry).setTimes asRoot
          (setsOwner asRoot entry) entry)

namespace MetaEnds

variable {faults : CallFaults} {c : ℕ} {asRoot : Bool} {entry : Entry} {m x x' : TargetMeta}
  {applied owner applied' owner' : Bool}

/-- There is one end. -/
theorem unique (h : MetaEnds faults c asRoot entry m applied owner x)
    (h' : MetaEnds faults c asRoot entry m applied' owner' x') :
    applied = applied' ∧ owner = owner' ∧ x = x' := by
  have hone : ∀ {k k' : ℕ}, faults.fault = some k → faults.fault = some k' → k = k' :=
    fun hk hk' => Option.some.inj (hk.symm.trans hk')
  -- each end but the last one has its own failing call, and no two calls have one number
  cases h with
  | xattr hj fails =>
    cases h' with
    | xattr hj' fails' =>
      obtain rfl := Nat.add_left_cancel (hone fails fails')
      exact ⟨rfl, rfl, rfl⟩
    | owner _ fails' | time _ fails' | mode _ _ fails' =>
      have := hone fails fails'
      omega
    | all fails' => exact absurd ⟨_, by omega, fails⟩ fails'
  | owner sets fails =>
    cases h' with
    | owner => exact ⟨rfl, rfl, rfl⟩
    | xattr _ fails' =>
      have := hone fails fails'
      omega
    | time _ fails' | mode _ _ fails' =>
      rw [sets, Bool.toNat_true] at fails'
      have := hone fails fails'
      omega
    | all fails' =>
      rw [sets, Bool.toNat_true] at fails'
      exact absurd ⟨_, by omega, fails⟩ fails'
  | time recorded fails =>
    cases h' with
    | time => exact ⟨rfl, rfl, rfl⟩
    | xattr _ fails' | mode _ _ fails' =>
      have := hone fails fails'
      omega
    | owner sets fails' =>
      rw [sets, Bool.toNat_true] at fails
      have := hone fails fails'
      omega
    | all fails' =>
      obtain ⟨mtimeNs, hm⟩ := Option.isSome_iff_exists.1 recorded
      rw [hm, Option.elim_some] at fails'
      rw [Nat.add_assoc] at fails
      exact absurd ⟨_, by split_ifs <;> omega, fails⟩ fails'
  | mode recorded applied fails =>
    cases h' with
    | mode recorded' => exact ⟨rfl, rfl, by rw [Option.some.inj (recorded.symm.trans recorded')]⟩
    | xattr _ fails' | time _ fails' =>
      have := hone fails fails'
      omega
    | owner sets fails' =>
      rw [sets, Bool.toNat_true] at fails
      have := hone fails fails'
      omega
    | all fails' =>
      rw [recorded, Option.elim_some, if_neg applied] at fails'
      rw [Nat.add_assoc, Nat.add_assoc] at fails
      exact absurd ⟨_, by omega, fails⟩ fails'
  | all fails =>
    cases h' with
    | all => exact ⟨rfl, rfl, rfl⟩
    | xattr _ fails' => exact absurd ⟨_, by omega, fails'⟩ fails
    | owner sets fails' =>
      rw [sets, Bool.toNat_true] at fails
      exact absurd ⟨_, by omega, fails'⟩ fails
    | time recorded fails' =>
      obtain ⟨mtimeNs, hm⟩ := Option.isSome_iff_exists.1 recorded
      rw [hm, Option.elim_some] at fails
      rw [Nat.add_assoc] at fails'
      exact absurd ⟨_, by split_ifs <;> omega, fails'⟩ fails
    | mode recorded applied fails' =>
      rw [recorded, Option.elim_some, if_neg applied] at fails
      rw [Nat.add_assoc, Nat.add_assoc] at fails'
      exact absurd ⟨_, by omega, fails'⟩ fails

/-- Where nothing failed, this is what `apply_meta` comes to. -/
theorem eq_applyMeta (h : MetaEnds faults c asRoot entry m applied owner x) (path : RelPath)
    (ha : applied = true) (ho : owner = true) : x = (m.applyMeta asRoot path entry).2 := by
  cases h with
  | all => exact (m.applyMeta_eq asRoot path entry).symm
  | owner => cases ho
  | xattr | time | mode => cases ha

end MetaEnds

namespace Calls

variable {faults : CallFaults} {path : RelPath} {s₀ : CallState}

theorem userXattrs_cons {x : Bytes × Bytes} {xs : List (Bytes × Bytes)}
    (hx : "user.".toUTF8.toList <+: x.1) : userXattrs (x :: xs) = x :: userXattrs xs :=
  List.filter_cons_of_pos (decide_eq_true hx)

theorem userXattrs_cons_of_not {x : Bytes × Bytes} {xs : List (Bytes × Bytes)}
    (hx : ¬"user.".toUTF8.toList <+: x.1) : userXattrs (x :: xs) = userXattrs xs :=
  List.filter_cons_of_neg (by simpa using hx)

/-- The attributes are set up to the one whose call fails. -/
@[spec]
theorem applyXattrs_spec {xs : List (Bytes × Bytes)} {m : TargetMeta} :
    ⦃fun s => ⌜s = s₀⌝⦄ applyXattrs faults path xs m
    ⦃post⟨fun r s => ⌜s.toRestoreWalk = s₀.toRestoreWalk ∧
        ((∃ j < (userXattrs xs).length, faults.fault = some (s₀.calls + j) ∧
          s₀.calls + j < s.calls ∧
            ∃ e, r = (.error e, m.setXattrs (some ((userXattrs xs).take j)))) ∨
          ¬faults.Hits s₀.calls (userXattrs xs).length ∧
            s.calls = s₀.calls + (userXattrs xs).length ∧ r = (.ok (), m.setXattrs (some xs)))⌝,
      fun _ _ => ⌜False⌝⟩⦄ := by
  induction xs generalizing m s₀ with
  | nil =>
    mvcgen [applyXattrs]
    subst_vars
    exact ⟨rfl, .inr ⟨by simp [CallFaults.Hits, userXattrs], rfl, rfl⟩⟩
  | cons x xs ih =>
    mvcgen [applyXattrs, ih]
    -- a fault further on is one call later than for the rest of the list
    case vc1.cons.isTrue.post.success.post.success hx s hs _ s₁ h₁ r s₂ =>
      subst hs
      obtain ⟨hfault, rfl⟩ := h₁
      rintro hwalk (⟨j, hj, hj', hcalls, e, rfl⟩ | ⟨hno, hcalls, rfl⟩)
      · refine ⟨hwalk, .inl ⟨j + 1, ?_, ?_, ?_, e, ?_⟩⟩
        · simpa [userXattrs_cons hx] using hj
        · rw [hj']
          congr 1
          dsimp only
          omega
        · dsimp only at hcalls
          omega
        · rw [userXattrs_cons hx, List.take_succ_cons, TargetMeta.setXattrs_cons hx]
      · refine ⟨hwalk, .inr ⟨?_, ?_, ?_⟩⟩
        · rw [userXattrs_cons hx, List.length_cons, CallFaults.hits_succ]
          exact not_or.2 ⟨hfault, hno⟩
        · rw [userXattrs_cons hx, List.length_cons, hcalls]
          dsimp only
          omega
        · rw [TargetMeta.setXattrs_cons hx]
    case vc2.cons.isTrue.post.except.handle hx s hs e s₁ h₁ =>
      subst hs
      obtain ⟨hfault, rfl⟩ := h₁
      exact ⟨rfl, .inl ⟨0, by simp [userXattrs_cons hx], hfault, Nat.lt_succ_self _, e, rfl⟩⟩
    case vc3.cons.isFalse.post.success hx s hs r s₁ =>
      subst hs
      rw [userXattrs_cons_of_not hx, TargetMeta.setXattrs_cons_of_not hx]
      exact fun hwalk h => ⟨hwalk, h⟩

/-- The owner is set unless the call fails or there is none. -/
@[spec]
theorem applyOwner_spec {entry : Entry} {m : TargetMeta} :
    ⦃fun s => ⌜s = s₀⌝⦄ applyOwner faults path (ownerOfEntry entry) m
    ⦃post⟨fun r s => ⌜s.toRestoreWalk = s₀.toRestoreWalk ∧
        s.calls = s₀.calls + (setsOwner s₀.target.asRoot entry).toNat ∧
        (setsOwner s₀.target.asRoot entry ∧ faults.fault = some s₀.calls ∧
          (∃ e, r = (.error e, m)) ∨
          ¬faults.Hits s₀.calls (setsOwner s₀.target.asRoot entry).toNat ∧
            r.2 = m.setOwner s₀.target.asRoot entry ∧
            ((∃ e, r.1 = .error e) ∧ refusesOwner s₀.target.asRoot entry ∧
                setsOwner s₀.target.asRoot entry = false ∨
              r.1 = .ok (setsOwner s₀.target.asRoot entry) ∧
                refusesOwner s₀.target.asRoot entry = false))⌝,
      fun _ _ => ⌜False⌝⟩⦄ := by
  mvcgen [applyOwner]
  -- an owner that does not fit is refused without a call
  case vc1.h_1.h_1 s hs owner howner hroot e he =>
    subst hs
    obtain ⟨hsets, hrefuses⟩ := setsOwner_of_error hroot howner he
    exact ⟨rfl, by simp [hsets], .inr ⟨by simp [hsets, CallFaults.Hits],
      (TargetMeta.setOwner_of_not hsets).symm, .inl ⟨⟨e, rfl⟩, hrefuses, hsets⟩⟩⟩
  case vc2.h_1.h_2.post.success s hs owner howner hroot hok _ s₁ h₁ =>
    subst hs
    obtain ⟨hfault, rfl⟩ := h₁
    obtain ⟨hsets, hrefuses⟩ := setsOwner_of_ok hroot howner hok
    refine ⟨rfl, by simp [hsets], .inr ⟨?_, ?_, .inr ⟨by rw [hsets], hrefuses⟩⟩⟩
    · rw [hsets, Bool.toNat_true, CallFaults.hits_succ]
      exact not_or.2 ⟨hfault, by simp [CallFaults.Hits]⟩
    · rw [TargetMeta.setOwner, if_pos hsets, howner]
  case vc3.h_1.h_2.post.except.handle s hs owner howner hroot hok e s₁ h₁ =>
    subst hs
    obtain ⟨hfault, rfl⟩ := h₁
    obtain ⟨hsets, -⟩ := setsOwner_of_ok hroot howner hok
    exact ⟨rfl, by simp [hsets], .inl ⟨hsets, hfault, e, rfl⟩⟩
  -- no call is made without root or without an owner
  case vc4.h_2 s hs asRoot owner hno howner hroot =>
    subst hs
    have hnone : s.target.asRoot = true → ownerOfEntry entry = none := fun h =>
      Option.eq_none_iff_forall_ne_some.2 fun o ho => hno o (hroot ▸ h) (howner ▸ ho)
    obtain ⟨hsets, hrefuses⟩ := setsOwner_of_none hnone
    exact ⟨rfl, by simp [hsets], .inr ⟨by simp [hsets, CallFaults.Hits],
      (TargetMeta.setOwner_of_not hsets).symm, .inr ⟨by rw [hsets], hrefuses⟩⟩⟩

@[spec]
theorem applyMode_spec {mode : ℕ} {m : TargetMeta} :
    ⦃fun s => ⌜s = s₀⌝⦄ applyMode faults path mode m
    ⦃post⟨fun r s => ⌜s.toRestoreWalk = s₀.toRestoreWalk ∧
        (mode ≠ 0 ∧ faults.fault = some s₀.calls ∧ s₀.calls < s.calls ∧ (∃ e, r = (.error e, m)) ∨
          (mode ≠ 0 → faults.fault ≠ some s₀.calls) ∧ r = (.ok (), m.applyMode mode))⌝,
      fun _ _ => ⌜False⌝⟩⦄ := by
  mvcgen [applyMode]
  all_goals simp_all [TargetMeta.applyMode]

@[spec]
theorem applyTimesAndMode_spec {mtimeNs : ℤ} {mode : ℕ} {m : TargetMeta} :
    ⦃fun s => ⌜s = s₀⌝⦄ applyTimesAndMode faults path mtimeNs mode m
    ⦃post⟨fun r s => ⌜s.toRestoreWalk = s₀.toRestoreWalk ∧
        (faults.fault = some s₀.calls ∧ s₀.calls < s.calls ∧ (∃ e, r = (.error e, m)) ∨
          mode ≠ 0 ∧ faults.fault = some (s₀.calls + 1) ∧ s₀.calls + 1 < s.calls ∧
            (∃ e, r = (.error e, { m with mtimeNs := some mtimeNs })) ∨
          ¬faults.Hits s₀.calls (if mode = 0 then 1 else 2) ∧
            r = (.ok (), { m with mtimeNs := some mtimeNs }.applyMode mode))⌝,
      fun _ _ => ⌜False⌝⟩⦄ := by
  mvcgen [applyTimesAndMode]
  case vc1.post.success.post.success s hs _ s₁ h₁ r s₂ =>
    subst hs
    obtain ⟨hfault, rfl⟩ := h₁
    rintro hwalk (⟨hmode, hfault', hcalls, hr⟩ | ⟨hfault', hr⟩)
    · exact ⟨hwalk, .inr (.inl ⟨hmode, hfault', hcalls, hr⟩)⟩
    · refine ⟨hwalk, .inr (.inr ⟨?_, hr⟩)⟩
      split_ifs with hmode
      · exact fun h => hfault (by simpa [CallFaults.Hits] using h)
      · rw [CallFaults.hits_succ]
        exact not_or.2 ⟨hfault, fun h => hfault' hmode (by simpa [CallFaults.Hits] using h)⟩
  case vc2.post.except.handle s hs e s₁ h₁ =>
    subst hs
    obtain ⟨hfault, rfl⟩ := h₁
    exact ⟨rfl, .inl ⟨hfault, Nat.lt_succ_self _, e, rfl⟩⟩

/-- What `apply_meta` reports and leaves, from whichever call fails. -/
@[spec]
theorem applyMeta_spec {entry : Entry} {m : TargetMeta} :
    ⦃fun s => ⌜s = s₀⌝⦄ applyMeta faults path entry m
    ⦃post⟨fun r s => ⌜s.toRestoreWalk = s₀.toRestoreWalk ∧ ∃ applied owner,
        MetaEnds faults s₀.calls s₀.target.asRoot entry m applied owner r.2 ∧
        (r.1.1 = .ok () ↔ applied = true) ∧ (r.1.2 = .ok () ↔ owner = true) ∧
        (applied = false → ∃ k < s.calls, faults.fault = some k)⌝,
      fun _ _ => ⌜False⌝⟩⦄ := by
  have hxattrs : m.setXattrs (some (entry.xattrs.getD [])) = m.setXattrs entry.xattrs := by
    cases entry.xattrs <;> rfl
  mvcgen [applyMeta]
  case vc1.post.success.h_1 s hs _ e m' _ s₁ h₁ =>
    subst hs
    obtain ⟨hwalk, ⟨j, hj, hfault, hcalls, e', he⟩ | ⟨-, -, he⟩⟩ := h₁
    · cases he
      exact ⟨hwalk, false, true, .xattr hj hfault, by simp, by simp, fun _ => ⟨_, hcalls, hfault⟩⟩
    · cases he
  case vc2.post.success.h_2.post.success.h_1 s hs _ m' _ s₁ h₁ r _ _ hnone s₂ h₂ =>
    subst hs
    obtain ⟨hwalk, ⟨j, hj, hfault, hcalls, e', he⟩ | ⟨hno, hcalls, he⟩⟩ := h₁
    · cases he
    cases he
    obtain ⟨hwalk', hcalls', howner⟩ := h₂
    rw [hxattrs, hwalk] at howner
    refine ⟨hwalk'.trans hwalk, true, ?_⟩
    rcases howner with ⟨hsets, hfault, e, rfl⟩ | ⟨hfault, hm, hr⟩
    · refine ⟨false, ?_, by simp, by simp [Except.map], nofun⟩
      have := MetaEnds.owner (m := m) hsets (hcalls ▸ hfault)
      simpa [TargetMeta.setTimes, hnone] using this
    · refine ⟨!refusesOwner s.target.asRoot entry, ?_, by simp, ?_, nofun⟩
      · have hall : MetaEnds faults s.calls s.target.asRoot entry m true _ _ := .all (by
          rw [hnone, Option.elim_none, Nat.add_zero, CallFaults.hits_add]
          exact not_or.2 ⟨hno, hcalls ▸ hfault⟩)
        simpa [TargetMeta.setTimes, hnone, ← hm] using hall
      · rcases hr with ⟨⟨e, he⟩, hrefuses, -⟩ | ⟨he, hrefuses⟩
        all_goals simp [he, hrefuses, Except.map]
  case vc3.post.success.h_2.post.success.h_2.post.success
      s hs _ m' _ s₁ h₁ r restored _ mtimeNs hsome s₂ h₂ r' s₃ h₃ =>
    subst hs
    obtain ⟨hwalk, ⟨j, hj, hfault, hcalls, e', he⟩ | ⟨hno, hcalls, he⟩⟩ := h₁
    · cases he
    cases he
    obtain ⟨hwalk', hcalls', howner⟩ := h₂
    rw [hxattrs, hwalk] at howner
    obtain ⟨hwalk'', htimes⟩ := h₃
    refine ⟨hwalk''.trans (hwalk'.trans hwalk), ?_⟩
    have hroot : s₂.target.asRoot = s.target.asRoot := by rw [hwalk', hwalk]
    rw [hwalk, hcalls] at hcalls'
    rcases howner with ⟨hsets, hfault, e, rfl⟩ | ⟨hfault, hm, hr⟩
    -- the one call that fails sets the owner, so that the time and the mode are set
    · rw [hsets, Bool.toNat_true] at hcalls'
      rcases htimes with ⟨htime, -⟩ | ⟨-, htime, -⟩ | ⟨-, rfl⟩
      · have := Option.some.inj (hfault.symm.trans htime)
        omega
      · have := Option.some.inj (hfault.symm.trans htime)
        omega
      · refine ⟨true, false, ?_, by simp, by simp [Except.map], nofun⟩
        have howner := MetaEnds.owner (m := m) hsets (hcalls ▸ hfault)
        simpa only [TargetMeta.setTimes, hsome, hroot] using howner
    · have hrest : restored = setsOwner s.target.asRoot entry := by
        rcases hr with ⟨⟨e, he⟩, -, hsets⟩ | ⟨he, -⟩
        · simp only [restored, he, hsets]
        · simp only [restored, he]
      have hreport : Except.map (fun _ => ()) r.1 = .ok () ↔
          (!refusesOwner s.target.asRoot entry) = true := by
        rcases hr with ⟨⟨e, he⟩, hrefuses, -⟩ | ⟨he, hrefuses⟩
        all_goals simp [he, hrefuses, Except.map]
      rw [hroot, hm, hrest] at htimes
      rcases htimes with ⟨htime, hlt, e, rfl⟩ | ⟨hmode, htime, hlt, e, rfl⟩ | ⟨htime, rfl⟩
      · exact ⟨false, _, .time (by rw [hsome]; rfl) (hcalls' ▸ htime), by simp, hreport,
          fun _ => ⟨_, hlt, htime⟩⟩
      · exact ⟨false, _, .mode hsome hmode (hcalls' ▸ htime), by simp, hreport,
          fun _ => ⟨_, hlt, htime⟩⟩
      · refine ⟨true, _, ?_, by simp, hreport, nofun⟩
        have hall : MetaEnds faults s.calls s.target.asRoot entry m true _ _ := .all (by
          rw [hsome, Option.elim_some, CallFaults.hits_add, CallFaults.hits_add, not_or, not_or,
            ← Nat.add_assoc, ← hcalls']
          exact ⟨⟨hno, hcalls ▸ hfault⟩, htime⟩)
        simpa only [TargetMeta.setTimes, hsome] using hall

/-- The first error counts. -/
@[spec]
theorem both_spec {applied owner : Except CoreError Unit} :
    ⦃fun s => ⌜s = s₀⌝⦄ both applied owner
    ⦃post⟨fun _ s => ⌜s = s₀ ∧ applied = .ok () ∧ owner = .ok ()⌝, fun _ s => ⌜s = s₀⌝⟩⦄ := by
  mvcgen [both]

end Calls
end Kist
