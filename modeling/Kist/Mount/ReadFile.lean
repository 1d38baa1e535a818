import Kist.Backup.Steady
import Kist.Mount.Inodes
import Kist.Restore.Leaf

/-!
# Reading a mounted file

A read finds the chunk in which its position lies, takes from the chunk what it wants, and goes on
behind it. The chunks come from the cache or from the repository, and other operations use both
meanwhile.

* `FsCore.Reading`: what holds of the cache and of the resolved files in every session.
* `readLoop_slice`: the loop returns the bytes between its bounds.
* `mounted_read_is_slice`: so does a read of a file, at any point of any session.
-/

namespace Kist

open Checked (at_ at_ok slice slice_ok)

/-! ### Pieces of a list of pieces -/

/-- A piece of the concatenation that lies in one of the parts. -/
theorem List.take_drop_flatten {α : Type*} {parts : List (List α)} {i inner n : ℕ}
    (hi : i < parts.length) (hn : inner + n ≤ parts[i].length) :
    (parts.flatten.drop (((parts.map List.length).take i).sum + inner)).take n =
      (parts[i].drop inner).take n := by
  have hsplit : parts.flatten = (parts.take i).flatten ++
    (parts[i] ++ (parts.drop (i + 1)).flatten) := by
    conv_lhs => rw [← List.take_append_drop i parts, List.drop_eq_getElem_cons hi]
    rw [List.flatten_append, List.flatten_cons]
  have hlen : ((parts.map List.length).take i).sum = (parts.take i).flatten.length := by
    rw [List.length_flatten, List.map_take]
  rw [hsplit, hlen, List.drop_length_add_append, List.drop_append_of_le_length (by omega),
    List.take_append_of_le_length (by rw [List.length_drop]; omega)]

/-! ### Loads of the index -/

namespace ReloadableIndex

variable {env : IndexLoads} {repo : Repository} {r r' r'' : ReloadableIndex} {id : ChunkId}

/-- The index is the same, or has been loaded. -/
def Reloaded (env : IndexLoads) (r r' : ReloadableIndex) : Prop :=
  r'.index = r.index ∨ ∃ n, env.load n = .ok r'.index

theorem Reloaded.refl (r : ReloadableIndex) : Reloaded env r r := .inl rfl

theorem Reloaded.trans (h : Reloaded env r r') (h' : Reloaded env r' r'') : Reloaded env r r'' := by
  rcases h' with h' | h'
  · exact h.imp h'.trans fun h => h'.symm ▸ h
  · exact .inr h'

theorem reloaded_reload : Reloaded env r (r.reload env).2 := by
  unfold reload
  split_ifs
  · split
    · exact .inl rfl
    · next index h => exact .inr ⟨_, h⟩
  · exact .inl rfl

theorem reloaded_readChunk : Reloaded env r (r.readChunk env repo id).2 := by
  have hreload := @reloaded_reload env r
  unfold readChunk
  split
  · exact .refl r
  · split_ifs
    · rcases hr : r.reload env with ⟨e | u, r'⟩
      all_goals
        rw [hr] at hreload
        exact hreload
    · exact .refl r

theorem reloaded_readChunks : ∀ {ids : List ChunkId} {r : ReloadableIndex},
    Reloaded env r (readChunks env repo ids r).2
  | [], r => .refl r
  | id :: ids, r => by
    have hhead := @reloaded_readChunk env repo r id
    unfold readChunks
    rcases hr : r.readChunk env repo id with ⟨e | head, r₁⟩
    · rw [hr] at hhead
      exact hhead
    · rw [hr] at hhead
      have htail := @reloaded_readChunks ids r₁
      dsimp only
      rcases hr' : readChunks env repo ids r₁ with ⟨e | tail, r₂⟩
      all_goals
        rw [hr'] at htail
        exact hhead.trans htail

theorem reloaded_resolveChunks {chunks : List ChunkId} {content : ContentType} :
    Reloaded env r (r.resolveChunks env repo chunks content).2 := by
  unfold resolveChunks
  cases content with
  | direct => exact .refl r
  | indirect =>
    have h := @reloaded_readChunks env repo chunks r
    dsimp only
    rcases hr : readChunks env repo chunks r with ⟨e | bytes, r₁⟩
    all_goals
      rw [hr] at h
      exact h

theorem reloaded_rawLen : Reloaded env r (r.rawLen env id).2 := by
  have hreload := @reloaded_reload env r
  unfold rawLen
  split
  · exact .refl r
  · rcases hr : r.reload env with ⟨e | u, r'⟩
    all_goals
      rw [hr] at hreload
      exact hreload

theorem reloaded_rawLens : ∀ {ids : List ChunkId} {r : ReloadableIndex},
    Reloaded env r (rawLens env ids r).2
  | [], r => .refl r
  | id :: ids, r => by
    have hhead := @reloaded_rawLen env r id
    unfold rawLens
    rcases hr : r.rawLen env id with ⟨e | _ | len, r₁⟩
    all_goals rw [hr] at hhead
    · exact hhead
    · exact hhead
    · have htail := @reloaded_rawLens ids r₁
      dsimp only
      rcases hr' : rawLens env ids r₁ with ⟨e | lens, r₂⟩
      all_goals
        rw [hr'] at htail
        exact hhead.trans htail

end ReloadableIndex

/-! ### Lengths -/

variable {keys : RepoKeys} {ids : List ChunkId}

/-- The index gives the chunks of a list the lengths that they have. -/
def ChunkIndex.TruthfulOn (keys : RepoKeys) (ids : List ChunkId) (index : ChunkIndex) : Prop :=
  ∀ plain loc, keys.chunkId plain ∈ ids → index.get (keys.chunkId plain) = some loc →
    loc.rawLen = plain.length

/-- So do all the indexes that an operation may come to use. -/
structure Look.Truthful (ids : List ChunkId) (w : Look keys) : Prop where
  load : ∀ n index, w.loads.load n = .ok index → index.TruthfulOn keys ids
  fresh : ∀ index, w.fresh = .ok index → index.TruthfulOn keys ids
  stored : ∀ n index, .store index ∈ w.meanwhile n → index.TruthfulOn keys ids

/-- What a request meets. -/
def Request.look? : Request keys → Option (Look keys)
  | .lookup w _ _ | .opendir w _ | .read w _ _ _ => some w
  | .enter _ | .releasedir _ => none

/-- The request meets truthful indexes only. -/
def Request.Truthful (ids : List ChunkId) (request : Request keys) : Prop :=
  ∀ w ∈ request.look?, w.Truthful ids

theorem ReloadableIndex.Reloaded.truthful {w : Look keys} {r r' : ReloadableIndex}
    (h : ReloadableIndex.Reloaded w.loads r r') (hw : w.Truthful ids)
    (hr : r.index.TruthfulOn keys ids) : r'.index.TruthfulOn keys ids := by
  rcases h with h | ⟨n, h⟩
  · rwa [h]
  · exact hw.load n _ h

/-- The lengths that are found are those of the chunks. -/
theorem ReloadableIndex.rawLens_ok {w : Look keys} (hw : w.Truthful ids) :
    ∀ {plains : List Bytes} {r r' : ReloadableIndex} {lens : List ℕ},
      r.index.TruthfulOn keys ids → (∀ plain ∈ plains, keys.chunkId plain ∈ ids) →
        rawLens w.loads (plains.map keys.chunkId) r = (.ok lens, r') → lens = plains.map List.length
  | [], r, r', lens, _, _, h => by
    cases h
    rfl
  | plain :: plains, r, r', lens, hr, hmem, h => by
    obtain ⟨hplain, hplains⟩ := List.forall_mem_cons.1 hmem
    have hreloaded := @reloaded_rawLen w.loads r (keys.chunkId plain)
    rw [List.map_cons] at h
    unfold rawLens at h
    rcases hlen : r.rawLen w.loads (keys.chunkId plain) with ⟨e | _ | len, r₁⟩
    · rw [hlen] at h
      cases h
    · rw [hlen] at h
      cases h
    · rw [hlen] at h hreloaded
      have hr₁ := hreloaded.truthful hw hr
      dsimp only at h
      rcases hrest : rawLens w.loads (plains.map keys.chunkId) r₁ with ⟨e | rest, r₂⟩
      · rw [hrest] at h
        cases h
      · rw [hrest] at h
        cases h
        rw [rawLens_ok hw hr₁ hplains hrest, List.map_cons]
        congr 1
        unfold rawLen at hlen
        split at hlen
        · next loc hloc =>
          cases hlen
          exact hr plain loc hplain hloc
        · -- not found at first: the index is reloaded once and asked again
          rcases hreload : r.reload w.loads with ⟨e | u, r₃⟩
          · rw [hreload] at hlen
            cases hlen
          · rw [hreload] at hlen
            obtain ⟨hfound, rfl⟩ := Prod.mk.inj hlen
            obtain ⟨loc, hloc, rfl⟩ := Option.map_eq_some_iff.1 (Except.ok.inj hfound)
            exact hr₁ plain loc hplain hloc

/-! ### What a session keeps -/

/-- A file was resolved to its list of chunks, with their lengths where these are the chunks of the
list `ids`. -/
structure ResolvedFile.Resolves (keys : RepoKeys) (ids : List ChunkId) (chunks : List ChunkId)
    (content : ContentType) (r : ResolvedFile) : Prop where
  lists : (⟨0, chunks, content⟩ : FileContent).Lists keys r.chunks
  offsets : ∀ plains : List Bytes, plains.map keys.chunkId = ids → r.chunks = ids →
    r.offsets = .fromRawLens (plains.map List.length)

namespace FsCore

/-- The cache fits its capacity and holds every chunk under its name, the index gives the chunks of
the list `ids` their lengths, and so do the files that were resolved. -/
structure Reading (keys : RepoKeys) (cap : ℕ) (ids : List ChunkId) (core : FsCore) : Prop where
  fits : core.lru.Fits
  cap : core.lru.cap = cap
  holds : core.lru.Holds fun id data => keys.chunkId data = id
  index : core.index.index.TruthfulOn keys ids
  resolved : ∀ ⦃ino r⦄, core.resolved.lookup ino = some r → ∃ inode chunks content,
    core.node ino = some inode ∧ inode.node = .file chunks content ∧
      r.Resolves keys ids chunks content

variable {cap : ℕ} {core core' : FsCore} {w : Look keys} {id : ChunkId} {n : ℕ}

theorem reading_new {index : ChunkIndex} (h : index.TruthfulOn keys ids) (chunkCache : ℕ) :
    (new index chunkCache).Reading keys (max chunkCache 1) ids where
  fits := Lru.fits_new chunkCache
  cap := rfl
  holds := Lru.holds_new chunkCache
  index := h
  resolved _ _ h := by cases h

/-- An operation that leaves the cache alone. -/
theorem Reading.browse (h : core.Reading keys cap ids) (hw : w.Truthful ids)
    (hb : core.Browses w core') : core'.Reading keys cap ids where
  fits := hb.lru ▸ h.fits
  cap := hb.lru ▸ h.cap
  holds := hb.lru ▸ h.holds
  index := by
    rcases hb.index with hindex | hfresh
    · exact hindex ▸ h.index
    · exact hw.fresh _ hfresh
  resolved ino r hr := by
    rw [hb.resolved] at hr
    unfold node
    rw [hb.inodes]
    exact h.resolved hr

/-- What another operation does. -/
theorem Reading.meanwhile (h : core.Reading keys cap ids) {event : Meanwhile}
    (hevent : ∀ index, event = .store index → index.TruthfulOn keys ids) :
    (core.meanwhile keys event).Reading keys cap ids := by
  cases event with
  | get id =>
    exact ⟨h.fits.get id, Lru.cap_get.trans h.cap, (h.holds.get id).2, h.index, h.resolved⟩
  | put plain =>
    exact ⟨h.fits.put _ _, Lru.cap_put.trans h.cap, h.holds.put rfl, h.index, h.resolved⟩
  | store index => exact ⟨h.fits, h.cap, h.holds, hevent index rfl, h.resolved⟩

theorem Reading.after (h : core.Reading keys cap ids) {events : List Meanwhile}
    (hevents : ∀ index, .store index ∈ events → index.TruthfulOn keys ids) :
    (core.after keys events).Reading keys cap ids := by
  induction events generalizing core with
  | nil => exact h
  | cons event events ih =>
    refine ih (h.meanwhile fun index hstore => hevents index ?_) fun index hstore =>
      hevents index (List.mem_cons_of_mem _ hstore)
    rw [hstore]
    exact List.mem_cons_self

/-- The chunks of a list can be read where the index says, also by an index that is stored
meanwhile, so that none of them is looked for anew. -/
structure Served (w : Look keys) (ids : List ChunkId) (core : FsCore) : Prop where
  here : ∀ n, ∀ id ∈ ids, ∃ plain, (w.repo n).readChunk id core.index.index = .ok plain
  stored : ∀ m index, .store index ∈ w.meanwhile m → ∀ n, ∀ id ∈ ids,
    ∃ plain, (w.repo n).readChunk id index = .ok plain

theorem Served.after (h : core.Served w ids) {events : List Meanwhile} {m : ℕ}
    (hevents : events ⊆ w.meanwhile m) : (core.after keys events).Served w ids := by
  induction events generalizing core with
  | nil => exact h
  | cons event events ih =>
    refine ih ⟨?_, h.stored⟩ (List.subset_of_cons_subset hevents)
    cases event with
    | get id => exact h.here
    | put plain => exact h.here
    | store index => exact h.stored m index (hevents List.mem_cons_self)

/-- **One chunk.** What is returned is the chunk of that name, and where it can be read it is. -/
theorem Reading.chunkOf (h : core.Reading keys cap ids) (hw : w.Truthful ids) (n : ℕ)
    (id : ChunkId) {x : Except ReadStop Bytes} (hx : core.chunkOf w n id = (x, core')) :
    core'.Reading keys cap ids ∧
      ((∃ data, x = .ok data ∧ keys.chunkId data = id ∧
          (id ∈ ids → core.Served w ids → core'.Served w ids)) ∨
        x = .error .unread ∧ (id ∈ ids → ¬core.Served w ids)) := by
  -- other readers may have been at work before the cache is asked, and again between the read and
  -- the put
  have h₁ := h.after (hw.stored (2 * n))
  have hserved : core.Served w ids → (core.after keys (w.meanwhile (2 * n))).Served w ids :=
    fun hs => hs.after (List.Subset.refl _)
  unfold FsCore.chunkOf at hx
  generalize core.after keys (w.meanwhile (2 * n)) = core₁ at h₁ hserved hx
  dsimp only at hx
  obtain ⟨hfound, hholds⟩ := h₁.holds.get id
  have hfits := h₁.fits.get id
  have hcap : (core₁.lru.get id).2.cap = cap := Lru.cap_get.trans h₁.cap
  rcases hget : core₁.lru.get id with ⟨_ | data, lru⟩
  · rw [hget] at hx hholds hfits hcap
    dsimp only at hx hholds hfits hcap
    have hreloaded := @ReloadableIndex.reloaded_readChunk w.loads (w.repo n) core₁.index id
    rcases hread : core₁.index.readChunk w.loads (w.repo n) id with ⟨e | data, index⟩
    · rw [hread] at hx hreloaded
      cases hx
      refine ⟨⟨hfits, hcap, hholds, hreloaded.truthful hw h₁.index, h₁.resolved⟩,
        .inr ⟨rfl, fun hid hs => ?_⟩⟩
      obtain ⟨plain, hplain⟩ := (hserved hs).here n id hid
      rw [ReloadableIndex.readChunk, hplain] at hread
      cases hread
    · rw [hread] at hx hreloaded
      have hid : keys.chunkId data = id := by
        rw [← w.repo_keys n]
        exact ReloadableIndex.readChunk_ok hread
      have h₂ : ({ core₁ with lru, index } : FsCore).Reading keys cap ids :=
        ⟨hfits, hcap, hholds, hreloaded.truthful hw h₁.index, h₁.resolved⟩
      have h₃ := h₂.after (hw.stored (2 * n + 1))
      cases hx
      refine ⟨⟨h₃.fits.put _ _, Lru.cap_put.trans h₃.cap, h₃.holds.put hid, h₃.index, h₃.resolved⟩,
        .inl ⟨data, rfl, hid, fun hmem hs => ?_⟩⟩
      obtain ⟨plain, hplain⟩ := (hserved hs).here n id hmem
      rw [ReloadableIndex.readChunk, hplain] at hread
      cases hread
      have hs₂ : ({ core₁ with lru } : FsCore).Served w ids := ⟨(hserved hs).here, hs.stored⟩
      have hs₃ := hs₂.after (List.Subset.refl (w.meanwhile (2 * n + 1)))
      exact ⟨hs₃.here, hs₃.stored⟩
  · rw [hget] at hx hholds hfits hcap hfound
    cases hx
    exact ⟨⟨hfits, hcap, hholds, h₁.index, h₁.resolved⟩,
      .inl ⟨data, rfl, hfound data rfl, fun _ hs => ⟨(hserved hs).here, hs.stored⟩⟩⟩

/-! ### The loop -/

theorem Reading.readLoop (h : core.Reading keys cap ids) (hw : w.Truthful ids) (r : ResolvedFile)
    (stop pos n : ℕ) (buf : Bytes) :
    (FsCore.readLoop w r stop pos n buf core).2.Reading keys cap ids := by
  fun_induction FsCore.readLoop w r stop pos n buf core with
  | case1 | case2 | case3 | case8 => exact h
  | case4 pos n buf core hlt i inChunk hl id hid e core' hx => exact (h.chunkOf hw n id hx).1
  | case5 pos n buf core hlt i inChunk hl id hid data core' hx => exact (h.chunkOf hw n id hx).1
  | case6 pos n buf core hlt i inChunk hl id hid data core' hx => exact (h.chunkOf hw n id hx).1
  | case7 pos n buf core hlt i inChunk hl id hid data core' hx avail take ht piece hp ih =>
    exact ih (h.chunkOf hw n id hx).1

/-- One round of the loop at a position before the end: a chunk is found for it, which holds bytes
from there on. -/
theorem exists_piece {plains : List Bytes} {r : ResolvedFile}
    (hchunks : r.chunks = plains.map keys.chunkId)
    (hoffsets : r.offsets = .fromRawLens (plains.map List.length))
    (hlen : plains.flatten.length < 2 ^ 64) {pos stop : ℕ} (hpos : pos < stop)
    (hstop : stop ≤ plains.flatten.length) :
    ∃ i inChunk plain, plain ∈ plains ∧ r.offsets.locate pos = .ok (some (i, inChunk)) ∧
      at_ r.chunks i = .ok (keys.chunkId plain) ∧ min (plain.length - inChunk) (stop - pos) ≠ 0 ∧
      ∃ piece, slice plain inChunk
        (inChunk + min (plain.length - inChunk) (stop - pos)) = .ok piece ∧
        piece = (plains.flatten.drop pos).take (min (plain.length - inChunk) (stop - pos)) := by
  have hsum : (plains.map List.length).sum = plains.flatten.length := List.length_flatten.symm
  obtain ⟨i, hi, inChunk, hin, hstart, hlocate⟩ :=
    @ChunkOffsets.locate_fromRawLens pos (plains.map List.length) (by omega) (by omega)
  rw [List.getElem_map] at hin
  rw [List.length_map] at hi
  have hat : at_ r.chunks i = .ok (keys.chunkId plains[i]) := by
    have hi' : i < r.chunks.length := by rwa [hchunks, List.length_map]
    rw [at_ok hi']
    simp only [hchunks, List.getElem_map]
  have hle : inChunk + min (plains[i].length - inChunk) (stop - pos) ≤ plains[i].length := by omega
  refine ⟨i, inChunk, plains[i], List.getElem_mem hi, by rw [hoffsets, hlocate], hat, by omega, _,
    slice_ok (Nat.le_add_right _ _) hle, ?_⟩
  generalize min (plains[i].length - inChunk) (stop - pos) = want at hle ⊢
  rw [← hstart, List.take_drop_flatten hi hle, List.drop_take, Nat.add_sub_cancel_left]

/-- **The loop.** It returns the bytes from the offset up to the end, unless a chunk cannot be
read. -/
theorem Reading.readLoop_slice (hinj : Function.Injective keys.chunkId) (hw : w.Truthful ids)
    {plains : List Bytes} (hids : plains.map keys.chunkId = ids) {r : ResolvedFile}
    (hchunks : r.chunks = plains.map keys.chunkId)
    (hoffsets : r.offsets = .fromRawLens (plains.map List.length))
    (hlen : plains.flatten.length < 2 ^ 64) {stop offset pos n : ℕ} {buf : Bytes}
    (hstop : stop ≤ plains.flatten.length) (h : core.Reading keys cap ids) (hpos : pos ≤ stop)
    (hoffset : offset ≤ pos) (hbuf : buf = (plains.flatten.take pos).drop offset) :
    (FsCore.readLoop w r stop pos n buf core).1 = .ok ((plains.flatten.take stop).drop offset) ∨
      (FsCore.readLoop w r stop pos n buf core).1 = .error .unread ∧ ¬core.Served w ids := by
  -- on the bytes still to be read: every turn of the loop takes at least one
  induction hleft : stop - pos using Nat.strong_induction_on generalizing pos n buf core with
  | _ left ih =>
    unfold FsCore.readLoop
    by_cases hlt : pos < stop
    · rw [dif_pos hlt]
      obtain ⟨i, inChunk, plain, hplain, hlocate, hat, hne, piece, hpiece, heq⟩ :=
        exists_piece hchunks hoffsets hlen hlt hstop
      have hmem : keys.chunkId plain ∈ ids := hids ▸ List.mem_map_of_mem hplain
      rw [hlocate]
      dsimp only
      rw [hat]
      dsimp only
      rcases hx : core.chunkOf w n (keys.chunkId plain) with ⟨e | data, core'⟩
      · obtain ⟨-, ⟨data, hdata, -⟩ | ⟨he, hnot⟩⟩ := h.chunkOf hw n _ hx
        · cases hdata
        · exact .inr ⟨he, hnot hmem⟩
      · obtain ⟨h', ⟨data', hdata, hname, hserved⟩ | ⟨he, -⟩⟩ := h.chunkOf hw n _ hx
        · cases hdata
          -- the bytes that came have the name of the chunk, so they are the chunk
          obtain rfl := hinj hname
          dsimp only
          rw [dif_neg hne, hpiece]
          refine (ih _ ?_ h' ?_ (hoffset.trans (Nat.le_add_right _ _)) ?_ rfl).imp_right
            (And.imp_right (mt (hserved hmem)))
          · omega
          · omega
          · rw [hbuf, heq, List.take_add, List.drop_append_of_le_length]
            rw [List.length_take]
            omega
        · cases he
    · rw [dif_neg hlt, hbuf, le_antisymm hpos (not_lt.1 hlt)]
      exact .inl rfl

/-! ### Resolving a file -/

/-- **A resolution.** A file is resolved to the list of its chunks and their lengths. -/
theorem Reading.resolveFile (h : core.Reading keys cap ids) (hw : w.Truthful ids)
    {chunks : List ChunkId} {content : ContentType} {x : Except ReadStop ResolvedFile}
    (hx : core.resolveFile w chunks content = (x, core')) :
    core'.Reading keys cap ids ∧ core'.resolved = core.resolved ∧
      ∀ r, x = .ok r → r.Resolves keys ids chunks content := by
  unfold FsCore.resolveFile at hx
  have hlist := @ReloadableIndex.reloaded_resolveChunks w.loads (w.repo 0) core.index chunks content
  rcases hres : core.index.resolveChunks w.loads (w.repo 0) chunks content with ⟨e | list, index⟩
  · rw [hres] at hx hlist
    cases hx
    exact ⟨⟨h.fits, h.cap, h.holds, hlist.truthful hw h.index, h.resolved⟩, rfl,
      fun r hr => by cases hr⟩
  · rw [hres] at hx hlist
    have hindex := hlist.truthful hw h.index
    have hlens := @ReloadableIndex.reloaded_rawLens w.loads list index
    dsimp only at hx
    rcases hraw : ReloadableIndex.rawLens w.loads list index with ⟨e | lens, index'⟩
    · rw [hraw] at hx hlens
      cases hx
      exact ⟨⟨h.fits, h.cap, h.holds, hlens.truthful hw hindex, h.resolved⟩, rfl,
        fun r hr => by cases hr⟩
    · rw [hraw] at hx hlens
      cases hx
      refine ⟨⟨h.fits, h.cap, h.holds, hlens.truthful hw hindex, h.resolved⟩, rfl, fun r hr => ?_⟩
      cases hr
      refine ⟨?_, fun plains hplains hlist => ?_⟩
      · rw [← w.repo_keys 0]
        exact @ReloadableIndex.resolveChunks_ok w.loads (w.repo 0) core.index index list
          { name := [], kind := .file, metaKind := .generic, chunks, content } hres
      · dsimp only at hlist ⊢
        rw [hlist, ← hplains] at hraw
        rw [ReloadableIndex.rawLens_ok hw hindex (fun plain hplain => ?_) hraw]
        rw [← hplains]
        exact List.mem_map_of_mem hplain

/-- Chunks that can be read are read one after the other. -/
theorem Served.readChunks (hinj : Function.Injective keys.chunkId) {repo : Repository}
    (hkeys : repo.keys = keys) {index : ChunkIndex} : ∀ {plains : List Bytes},
      (∀ plain ∈ plains, ∃ data, repo.readChunk (keys.chunkId plain) index = .ok data) →
        repo.readChunks index (plains.map keys.chunkId) = .ok plains.flatten
  | [], _ => rfl
  | plain :: plains, h => by
    obtain ⟨⟨data, hdata⟩, hrest⟩ := List.forall_mem_cons.1 h
    have hsame : data = plain := by
      have hname := Repository.chunkId_of_readChunk hdata
      rw [hkeys] at hname
      exact hinj hname
    rw [hsame] at hdata
    rw [List.map_cons, List.flatten_cons]
    unfold Repository.readChunks
    rw [hdata, Served.readChunks hinj hkeys hrest]
    rfl

/-- The index knows the length of a chunk that can be read. -/
theorem Served.rawLens {repo : Repository} {env : IndexLoads} {r : ReloadableIndex} :
    ∀ {list : List ChunkId}, (∀ id ∈ list, ∃ data, repo.readChunk id r.index = .ok data) →
      ∃ lens, ReloadableIndex.rawLens env list r = (.ok lens, r)
  | [], _ => ⟨[], rfl⟩
  | id :: list, h => by
    obtain ⟨⟨data, hdata⟩, hrest⟩ := List.forall_mem_cons.1 h
    obtain ⟨lens, hlens⟩ := @Served.rawLens repo env r _ hrest
    cases hget : r.index.get id with
    | none =>
      rw [Repository.readChunk, hget] at hdata
      cases hdata
    | some loc =>
      refine ⟨loc.rawLen :: lens, ?_⟩
      unfold ReloadableIndex.rawLens ReloadableIndex.rawLen
      rw [hget]
      dsimp only
      rw [hlens]

/-- A file whose chunks can be read is resolved. -/
theorem Served.resolveFile (hinj : Function.Injective keys.chunkId) {chunks list : List ChunkId}
    {content : ContentType} (hlists : (⟨0, chunks, content⟩ : FileContent).Lists keys list)
    (h : core.Served w (chunks ++ list)) :
    ∃ r, core.resolveFile w chunks content = (.ok r, core) := by
  have hread : ∀ id ∈ chunks ++ list, ∃ data, (w.repo 0).readChunk id core.index.index = .ok data :=
    h.here 0
  obtain ⟨hchunks, hlist⟩ := List.forall_mem_append.1 hread
  have hres : (w.repo 0).resolveChunks chunks content core.index.index = .ok list := by
    unfold FileContent.Lists at hlists
    cases content with
    | direct => exact congrArg Except.ok hlists.symm
    | indirect =>
      obtain ⟨plains, rfl, hspell⟩ := hlists
      have hbytes := Served.readChunks hinj (w.repo_keys 0) fun plain hplain =>
        hchunks _ (List.mem_map_of_mem hplain)
      unfold Repository.resolveChunks
      rw [hbytes]
      show (w.repo 0).chunkIdsOf plains.flatten = _
      rw [← w.repo_keys 0] at hspell
      unfold Repository.chunkIdsOf
      rw [hspell]
      rfl
  obtain ⟨lens, hlens⟩ := @Served.rawLens _ w.loads _ _ hlist
  refine ⟨⟨list, .fromRawLens lens⟩, ?_⟩
  unfold FsCore.resolveFile
  rw [ReloadableIndex.resolveChunks_of_reads hres]
  dsimp only
  rw [hlens]

/-! ### Reading a file -/

theorem Reading.readAt (h : core.Reading keys cap ids) (hw : w.Truthful ids) (r : ResolvedFile)
    (offset size : ℕ) : (core.readAt w r offset size).2.Reading keys cap ids := by
  unfold FsCore.readAt
  dsimp only
  split_ifs
  · exact h
  · exact h.readLoop hw r _ _ _ _

/-- A file that was resolved. -/
theorem Reading.insert (h : core.Reading keys cap ids) (hw : w.Truthful ids) {ino : Ino}
    {inode : Inode} {chunks : List ChunkId} {content : ContentType}
    (hino : core.node ino = some inode) (hnode : inode.node = .file chunks content)
    {r : ResolvedFile} (hx : core.resolveFile w chunks content = (.ok r, core')) :
    ({ core' with resolved := core'.resolved.insert ino r } : FsCore).Reading keys cap ids := by
  obtain ⟨h', -, hresolves⟩ := h.resolveFile hw hx
  have hinodes : core'.inodes = core.inodes :=
    (congrArg (fun x => x.2.inodes) hx).symm.trans (core.inodes_resolveFile w chunks content)
  refine ⟨h'.fits, h'.cap, h'.holds, h'.index, fun ino' r' hr' => ?_⟩
  rw [Dict.lookup_insert'] at hr'
  split_ifs at hr' with heq
  · cases hr'
    refine ⟨inode, chunks, content, ?_, hnode, hresolves _ rfl⟩
    rw [heq, ← hino]
    exact congrArg (fun t => t.map.lookup ino) hinodes
  · exact h'.resolved hr'

/-- A read of any file keeps the cache and the index as they should be. -/
theorem Reading.readFile (h : core.Reading keys cap ids) (hw : w.Truthful ids) (ino : Ino)
    (offset size : ℕ) : (core.readFile w ino offset size).2.Reading keys cap ids := by
  unfold FsCore.readFile
  cases hino : core.node ino with
  | none => exact h
  | some inode =>
    dsimp only
    cases hnode : inode.node with
    | file chunks content =>
      dsimp only
      cases core.resolved.lookup ino with
      | some r => exact h.readAt hw r offset size
      | none =>
        dsimp only
        rcases hx : core.resolveFile w chunks content with ⟨e | r, core'⟩
        · exact (h.resolveFile hw hx).1
        · exact (h.insert hw hino hnode hx).readAt hw r offset size
    | root | client | syntheticDir | dir | symlink => exact h

/-- The bytes from an offset on, as many as are wanted and there are. -/
def sliceOf (bytes : Bytes) (offset size : ℕ) : Bytes :=
  (bytes.take (min bytes.length (offset + size))).drop (min offset bytes.length)

/-- **A read behind the resolution.** -/
theorem Reading.readAt_slice (hinj : Function.Injective keys.chunkId) (hw : w.Truthful ids)
    (h : core.Reading keys cap ids) {plains : List Bytes} (hids : plains.map keys.chunkId = ids)
    {r : ResolvedFile} (hchunks : r.chunks = ids)
    (hoffsets : r.offsets = .fromRawLens (plains.map List.length))
    (hlen : plains.flatten.length < 2 ^ 64) (offset size : ℕ) :
    (core.readAt w r offset size).1 = .ok (sliceOf plains.flatten offset size) ∨
      (core.readAt w r offset size).1 = .error .unread ∧ ¬core.Served w ids := by
  have hsum : (plains.map List.length).sum = plains.flatten.length := List.length_flatten.symm
  have htotal : r.offsets.total = plains.flatten.length := by
    rw [hoffsets, ChunkOffsets.total_fromRawLens (by omega), hsum]
  unfold FsCore.readAt sliceOf
  dsimp only
  rw [htotal]
  split_ifs with hend
  · left
    rw [min_eq_right hend, List.drop_of_length_le]
    rw [List.length_take]
    omega
  · have hstop : min plains.flatten.length (min (offset + size) (2 ^ 64 - 1)) =
        min plains.flatten.length (offset + size) := by omega
    rw [hstop, min_eq_left (not_le.1 hend).le]
    refine Reading.readLoop_slice hinj hw hids (hchunks.trans hids.symm) hoffsets hlen
      (min_le_left _ _) h (by omega) le_rfl ?_
    rw [List.drop_of_length_le]
    rw [List.length_take]
    omega

/-- **A read.** -/
theorem Reading.readFile_returns (hinj : Function.Injective keys.chunkId) (hw : w.Truthful ids)
    (h : core.Reading keys cap ids) {ino : Ino} {inode : Inode} {chunks : List ChunkId}
    {content : ContentType} (hino : core.node ino = some inode)
    (hnode : inode.node = .file chunks content)
    (hlists : (⟨0, chunks, content⟩ : FileContent).Lists keys ids) {plains : List Bytes}
    (hids : plains.map keys.chunkId = ids) (hlen : plains.flatten.length < 2 ^ 64)
    (offset size : ℕ) :
    (core.readFile w ino offset size).1 = .ok (sliceOf plains.flatten offset size) ∨
      (core.readFile w ino offset size).1 = .error .unread ∧ ¬core.Served w (chunks ++ ids) := by
  have hserved : ∀ core' : FsCore, core'.index = core.index → core.Served w (chunks ++ ids) →
      core'.Served w ids := fun core' hindex hs =>
    ⟨fun n id hid => hindex ▸ hs.here n id (List.mem_append_right _ hid),
      fun m index hstore n id hid => hs.stored m index hstore n id (List.mem_append_right _ hid)⟩
  unfold FsCore.readFile
  rw [hino]
  dsimp only
  rw [hnode]
  dsimp only
  cases hr : core.resolved.lookup ino with
  -- the chunks and offsets of an earlier read of this inode
  | some r =>
    obtain ⟨inode', chunks', content', hino', hnode', hresolves⟩ := h.resolved hr
    cases hino.symm.trans hino'
    cases hnode.symm.trans hnode'
    have hchunks := hresolves.lists.unique hinj hlists
    exact (h.readAt_slice hinj hw hids hchunks (hresolves.offsets plains hids hchunks) hlen
      offset size).imp_right (And.imp_right (mt (hserved core rfl)))
  -- a first read resolves the file, which may reload the index
  | none =>
    dsimp only
    rcases hx : core.resolveFile w chunks content with ⟨e | r, core'⟩
    · refine .inr ⟨?_, fun hs => ?_⟩
      · unfold FsCore.resolveFile at hx
        split at hx
        · cases hx
          rfl
        · split at hx
          · cases hx
            rfl
          · cases hx
      · obtain ⟨r, hr⟩ := hs.resolveFile hinj hlists
        rw [hx] at hr
        cases hr
    · obtain ⟨h', hresolved, hresolves⟩ := h.resolveFile hw hx
      have hr := hresolves r rfl
      have hchunks := hr.lists.unique hinj hlists
      refine ((h.insert hw hino hnode hx).readAt_slice hinj hw hids hchunks
        (hr.offsets plains hids hchunks) hlen offset size).imp_right
          (And.imp_right (mt fun hs => ?_))
      obtain ⟨r', hr'⟩ := hs.resolveFile hinj hlists
      cases hx.symm.trans hr'
      exact hserved _ rfl hs

/-- The table may grow. -/
theorem Reading.enter (h : core.Reading keys cap ids) (htable : core.inodes.Sound)
    (p : PendingLookup) :
    (core.lookupEnter p).2.Reading keys cap ids where
  fits := h.fits
  cap := h.cap
  holds := h.holds
  index := h.index
  resolved ino r hr := by
    obtain ⟨inode, chunks, content, hino, hnode, hresolves⟩ := h.resolved hr
    exact ⟨inode, chunks, content, node_grows (grows_lookupEnter htable p) hino, hnode, hresolves⟩

end FsCore

/-! ### Sessions -/

variable {ops : UtcOps} {cap : ℕ}

/-- **A request.** -/
theorem Session.reading_step {s : Session keys} (hs : s.Sound ops)
    (h : s.core.Reading keys cap ids) {request : Request keys} (hr : request.Truthful ids) :
    (s.step ops request).core.Reading keys cap ids := by
  cases request with
  | lookup w parent name =>
    have hb := @FsCore.browses_lookupRead keys ops s.core w parent name
    unfold Session.step
    dsimp only
    rcases hl : s.core.lookupRead ops w parent name with ⟨e | reply | p, core'⟩
    all_goals
      rw [hl] at hb
      exact h.browse (hr w rfl) hb
  | enter i =>
    unfold Session.step
    dsimp only
    cases s.waiting[i]? with
    | none => exact h
    | some x => exact h.enter hs.table x.2
  | opendir w ino => exact h.browse (hr w rfl) (s.core.browses_opendir w ino)
  | releasedir fh => exact ⟨h.fits, h.cap, h.holds, h.index, h.resolved⟩
  | read w ino offset size => exact h.readFile (hr w rfl) ino offset size

/-- **A run.** -/
theorem Session.reading_run {requests : List (Request keys)} : ∀ {s : Session keys}, s.Sound ops →
    s.core.Reading keys cap ids → (∀ request ∈ requests, request.Truthful ids) →
      (s.run ops requests).core.Reading keys cap ids := by
  induction requests with
  | nil => exact fun _ h _ => h
  | cons request requests ih =>
    intro s hs h hr
    obtain ⟨hrequest, hrequests⟩ := List.forall_mem_cons.1 hr
    exact ih (hs.step request) (Session.reading_step hs h hrequest) hrequests

/-- In every session the cache fits its capacity, whatever the index says. -/
theorem Session.lru_fits (ops : UtcOps) (index : ChunkIndex) (chunkCache : ℕ)
    (requests : List (Request keys)) :
    ((Session.new index chunkCache).run ops requests).core.lru.Fits ∧
      ((Session.new index chunkCache).run ops requests).core.lru.cap = max chunkCache 1 := by
  have htrue : ∀ index : ChunkIndex, index.TruthfulOn keys [] := fun _ _ _ h => by cases h
  have h := @Session.reading_run keys [] ops _ requests _ (Session.sound_new index chunkCache)
    (FsCore.reading_new (htrue index) chunkCache)
    fun _ _ w _ => ⟨fun _ _ _ => htrue _, fun _ _ => htrue _, fun _ _ _ => htrue _⟩
  exact ⟨h.fits, h.cap⟩

/-- **A mounted read is a slice.** At any point of any session in which the indexes give the chunks
of a file their lengths, a read of the file ends, and returns the bytes of the file from the offset
on, as many as are wanted and there are; or a chunk of it could not be read where the index says.
The cache fits its capacity afterwards. -/
theorem mounted_read_is_slice (ops : UtcOps) (hinj : Function.Injective keys.chunkId)
    {index : ChunkIndex}
    {chunkCache : ℕ} {requests : List (Request keys)} {w : Look keys} {ino : Ino} {inode : Inode}
    {c : FileContent} {bytes : Bytes}
    (hino : ((Session.new index chunkCache).run ops requests).core.node ino = some inode)
    (hnode : inode.node = .file c.chunks c.content) (hlists : c.Lists keys ids)
    (hholds : c.Holds keys bytes) (hsize : c.size < 2 ^ 64) (hindex : index.TruthfulOn keys ids)
    (hrequests : ∀ request ∈ requests, request.Truthful ids) (hw : w.Truthful ids)
    (offset size : ℕ) :
    let core := ((Session.new index chunkCache).run ops requests).core
    ((core.readFile w ino offset size).1 =
        .ok ((bytes.take (min bytes.length (offset + size))).drop (min offset bytes.length)) ∨
      (core.readFile w ino offset size).1 = .error .unread ∧ ¬core.Served w (c.chunks ++ ids)) ∧
    (core.readFile w ino offset size).2.lru.Fits ∧
    (core.readFile w ino offset size).2.lru.cap = max chunkCache 1 := by
  have h := @Session.reading_run keys ids ops _ requests _ (Session.sound_new index chunkCache)
    (FsCore.reading_new hindex chunkCache) hrequests
  have hafter := h.readFile hw ino offset size
  obtain ⟨⟨ids', hlists', plains, hplains, rfl⟩, hlen⟩ := hholds
  obtain rfl := hlists'.unique hinj hlists
  exact ⟨h.readFile_returns hinj hw hino hnode hlists hplains (hlen ▸ hsize) offset size,
    hafter.fits,
    hafter.cap⟩

/-! ### A mount with a file of three chunks -/

/-- The chunks of the file `r/f`. -/
def threeChunks : List Bytes := [[10, 11], [12, 13, 14], [15]]

/-- Where its chunks are in the pack. -/
def threePlaces : List PackEntry :=
  [⟨RepoKeys.ideal.chunkId [10, 11], 8, 42, 2⟩, ⟨RepoKeys.ideal.chunkId [12, 13, 14], 50, 43, 3⟩,
    ⟨RepoKeys.ideal.chunkId [15], 93, 41, 1⟩]

/-- The tree of `r`. -/
def threeChunksTree : Tree :=
  .new [{ oneByteEntry with size := 6, chunks := threeChunks.map RepoKeys.ideal.chunkId }] none

/-- The snapshot of `r`. -/
def threeChunksSnapshot : Snapshot :=
  { oneByteSnapshot with roots := [⟨pathBytes [[114]], RepoKeys.ideal.treeId threeChunksTree⟩] }

/-- The repository with the snapshot, and with the chunks in one pack. -/
def Repository.threeChunksStored : Repository :=
  { Repository.oneByteAgain with
    store := { Repository.oneByteAgain.store with
      packs := Dict.collect [(1, ⟨134, (threePlaces.zip threeChunks).map fun place =>
        (place.1, .chunk place.1.id place.2)⟩)]
      trees := Dict.collect [(RepoKeys.ideal.treeId threeChunksTree,
        .tree (RepoKeys.ideal.treeId threeChunksTree) threeChunksTree)]
      snapshots := Dict.collect
        [(threeChunksSnapshot.key, .snapshot threeChunksSnapshot.key threeChunksSnapshot)] } }

/-- Its index. -/
def threeChunksIndex : ChunkIndex := loadIndex [(0, .new [⟨1, 134, threePlaces⟩])]

/-- It is mounted, and nothing else happens. -/
def threeChunksLook : Look .ideal where
  repo _ := .threeChunksStored
  repo_keys _ := rfl
  listing := some [SnapshotKey.name gregorian ⟨1, 50⟩]
  loads := ⟨fun _ => .ok threeChunksIndex, fun _ => false⟩
  fresh := .ok threeChunksIndex
  now := 0
  meanwhile _ := []

/-- The client, the snapshot, the root and the file are looked up one after the other, and the last
chunk of the file is read. -/
def threeChunksRequests : List (Request .ideal) :=
  [.lookup threeChunksLook 1 (List.replicate 31 48 ++ [49]), .enter 0,
    .lookup threeChunksLook 2 [49, 57, 55, 48, 48, 49, 48, 49, 84, 48, 48, 48, 48, 48, 48, 48, 48,
      48, 48, 48, 48, 48, 53, 48, 90], .enter 0,
    .lookup threeChunksLook 3 [114], .enter 0, .lookup threeChunksLook 4 [102], .enter 0,
    .read threeChunksLook 5 5 10]

/-- The chunks of a file. -/
def Inode.fileChunks (inode : Inode) : Option (List ChunkId × ContentType) :=
  match inode.node with
  | .file chunks content => some (chunks, content)
  | _ => none

theorem Inode.node_of_fileChunks {inode : Inode} {chunks : List ChunkId} {content : ContentType}
    (h : inode.fileChunks = some (chunks, content)) : inode.node = .file chunks content := by
  unfold Inode.fileChunks at h
  cases hn : inode.node with
  | file =>
    rw [hn] at h
    cases h
    rfl
  | root | client | syntheticDir | dir | symlink =>
    rw [hn] at h
    cases h

theorem truthfulOn_threeChunksIndex :
    threeChunksIndex.TruthfulOn .ideal (threeChunks.map RepoKeys.ideal.chunkId) := by
  intro plain loc hplain hloc
  obtain ⟨chunk, hchunk, hid⟩ := List.mem_map.1 hplain
  obtain rfl := RepoKeys.chunkId_ideal_injective hid
  have hlens : ∀ chunk ∈ threeChunks,
      (threeChunksIndex.get (RepoKeys.ideal.chunkId chunk)).map ChunkLocation.rawLen =
        some chunk.length := by decide +kernel
  have hget := hlens chunk hchunk
  rw [hloc, Option.map_some] at hget
  exact Option.some.inj hget

theorem truthful_threeChunksLook :
    threeChunksLook.Truthful (threeChunks.map RepoKeys.ideal.chunkId) where
  load _ _ h := by
    cases h
    exact truthfulOn_threeChunksIndex
  fresh _ h := by
    cases h
    exact truthfulOn_threeChunksIndex
  stored _ _ h := by cases h

/-- The read starts inside the first chunk and goes over its border, and the cache has room for one
chunk. -/
theorem mounted_read_is_slice_threeChunks :
    let core := ((Session.new threeChunksIndex 1).run gregorian threeChunksRequests).core
    (core.readFile threeChunksLook 5 1 3).1 = .ok [11, 12, 13] ∧
      (core.readFile threeChunksLook 5 1 3).2.lru.cap = 1 := by
  intro core
  have hfile : (core.node 5).bind Inode.fileChunks =
      some (threeChunks.map RepoKeys.ideal.chunkId, .direct) := by decide +kernel
  obtain ⟨inode, hino, hchunks⟩ := Option.bind_eq_some_iff.1 hfile
  have hrequests : ∀ request ∈ threeChunksRequests,
      request.Truthful (threeChunks.map RepoKeys.ideal.chunkId) := by
    intro request hrequest w hw
    have hlook : request.look? = some threeChunksLook ∨ request.look? = none := by
      simp only [threeChunksRequests, List.mem_cons, List.not_mem_nil, or_false] at hrequest
      rcases hrequest with rfl | rfl | rfl | rfl | rfl | rfl | rfl | rfl | rfl
      all_goals
        first
          | exact .inl rfl
          | exact .inr rfl
    rcases hlook with h | h
    · rw [h] at hw
      cases hw
      exact truthful_threeChunksLook
    · rw [h] at hw
      cases hw
  obtain ⟨hread | ⟨-, hnot⟩, -, hcap⟩ := @mounted_read_is_slice .ideal
    (threeChunks.map RepoKeys.ideal.chunkId) gregorian RepoKeys.chunkId_ideal_injective
    threeChunksIndex 1 threeChunksRequests threeChunksLook 5 inode
    ⟨6, threeChunks.map RepoKeys.ideal.chunkId, .direct⟩ threeChunks.flatten hino
    (Inode.node_of_fileChunks hchunks) rfl ⟨⟨_, rfl, threeChunks, rfl, rfl⟩, rfl⟩ (by norm_num)
    truthfulOn_threeChunksIndex hrequests truthful_threeChunksLook 1 3
  · have hslice : (threeChunks.flatten.take (min threeChunks.flatten.length (1 + 3))).drop
        (min 1 threeChunks.flatten.length) = [11, 12, 13] := by decide
    refine ⟨hread.trans (congrArg _ hslice), ?_⟩
    rw [hcap]
    rfl
  · -- all three chunks are where the index says
    have hserved : ∀ id ∈ threeChunks.map RepoKeys.ideal.chunkId,
        (Repository.threeChunksStored.readChunk id core.index.index).toOption.isSome = true := by
      decide +kernel
    refine absurd ⟨fun n id hid => ?_, fun m index h => by cases h⟩ hnot
    rw [List.mem_append, or_self] at hid
    have hsome := hserved id hid
    cases hchunk : Repository.threeChunksStored.readChunk id core.index.index with
    | ok plain => exact ⟨plain, hchunk⟩
    | error e =>
      rw [hchunk] at hsome
      cases hsome

end Kist
