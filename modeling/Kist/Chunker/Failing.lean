import Kist.Chunker.Stream

/-!
# Chunking a stream that fails

A reader may fail in the middle of its input. `State::fill` asks it for bytes until the buffer is
full, and gives the error on as soon as a read fails; what lies in the buffer then is lost. A reader
that fails after the bytes `data` is therefore one that does what the reader of `data` does, up to
the read that would have found the end.

* `collectFailing_eq`: the chunks that come before the error depend on the bytes alone.
* `cutFailing_isPrefix`: they are the first of the chunks of these bytes.
* `cutFailing_eq_nil_iff`: there are none as long as the buffer was not filled once.
-/

namespace Kist
namespace Chunking

open Checked

/-- The chunks that `next_chunk` yields before the reader fails: a call that gets to the end of the
input gets the error instead. -/
def collectFailing : ℕ → State → Except Fault (Option (List (List UInt8)))
  | 0, _ => return none
  | n + 1, st => do
    match ← nextChunk st with
    | (none, _) => return some []
    | (some chunk, st) =>
      if st.eof then return some [] else return (← collectFailing n st).map (chunk :: ·)

/-- What the window holds when `fill` is through, if the reader does not fail. -/
def Chunker.filled (c : Chunker) (ready : ℕ) : ℕ :=
  if ready < c.params.max then 2 * c.params.max else ready

/-- The reference: `boundary` iterated over the input while the buffer can be filled. `ready` is the
length of the window. -/
def cutReady (c : Chunker) : ℕ → ℕ → List UInt8 → Except Fault (Option (List (List UInt8)))
  | 0, _, _ => return none
  | n + 1, ready, data => do
    if data.length < c.filled ready then return some []
    let length ← boundary data c
    let chunk ← slice data 0 length
    return (← cutReady c n (c.filled ready - length) (data.drop length)).map (chunk :: ·)

/-- The chunks that a reader yields before it fails after `data`. -/
def Chunker.cutFailing (c : Chunker) (data : List UInt8) : List (List UInt8) :=
  match cutReady c (data.length + 1) 0 data with
  | .ok (some cs) => cs
  | _ => []

/-! ### The window of a reader that is not at its end -/

/-- The reading loop ends at the end of the input if and only if that comes before the buffer is
full. -/
theorem fillLoop_eof (buf : List UInt8) (len : ℕ) (r : Reader) (hlen : len ≤ buf.length) :
    ∃ buf' len' r' e, fillLoop buf len r = (buf', len', r', e) ∧
      (e = true → len' < buf.length) ∧ (e = false → len' = buf.length ∧ r'.isSome) := by
  induction buf, len, r using fillLoop.induct with
  | case1 buf len r h r' hr ih =>
    obtain ⟨buf', len', r'', e, heq, h1, h2⟩ := ih hlen
    exact ⟨buf', len', r'', e, (fillLoop_interrupted h hr).trans heq, h1, h2⟩
  | case2 buf len r h r' hr =>
    exact ⟨buf, len, none, true, fillLoop_end h hr, fun _ => h, by simp⟩
  | case3 buf len r h b bs r' hr ih =>
    obtain ⟨-, hle, -, -⟩ := Reader.read_some (by omega) hr
    have hsp : (splice buf len (b :: bs)).length = buf.length := length_splice (by omega)
    obtain ⟨buf', len', r'', e, heq, h1, h2⟩ := ih (by rw [hsp]; omega)
    rw [hsp] at h1 h2
    exact ⟨buf', len', r'', e, (fillLoop_read h hr).trans heq, h1, h2⟩
  | case4 buf len r h =>
    exact ⟨buf, len, some r, false, fillLoop_full h, by simp, fun _ => ⟨by omega, rfl⟩⟩

/-- The reader has not come to its end. -/
structure Live (st : State) : Prop extends Inv st where
  eof_eq : st.eof = false
  reader_isSome : st.reader.isSome

/-- `fill` goes to the end of the input if and only if the input does not fill the buffer. -/
theorem fill_live {st : State} (h : Live st) (hmax : 0 < st.chunker.params.max) :
    ∃ st', fill st = .ok st' ∧ Inv st' ∧ st'.chunker = st.chunker ∧ rest st' = rest st ∧
      ((st'.eof = true ∧ (rest st).length < st.chunker.filled (window st).length) ∨
        (Live st' ∧ (window st').length = st.chunker.filled (window st).length ∧
          st.chunker.filled (window st).length ≤ (rest st).length)) := by
  obtain ⟨st', hfill, hinv, hc, hrest, -, -⟩ := fill_spec h.toInv hmax
  refine ⟨st', hfill, hinv, hc, hrest, ?_⟩
  have hwindow := length_window h.toInv
  have hle : (window st').length ≤ (rest st).length := by
    rw [← hrest, rest, List.length_append]
    omega
  by_cases hmany : st.len - st.cursor ≥ st.chunker.params.max
  · -- the window is long enough, and `fill` does nothing
    have hsame : fill st = .ok st := by
      simp [fill, sub_ok h.cursor_le, hmany, bind, Except.bind, pure, Except.pure]
    obtain rfl : st' = st := Except.ok.inj (hfill.symm.trans hsame)
    have hfilled : st'.chunker.filled (window st').length = (window st').length := by
      rw [Chunker.filled, if_neg (by omega)]
    exact .inr ⟨h, hfilled.symm, by rw [hfilled]; exact hle⟩
  · have hfilled : st.chunker.filled (window st).length = 2 * st.chunker.params.max := by
      rw [Chunker.filled, if_pos (by omega)]
    obtain ⟨r, hr⟩ := Option.isSome_iff_exists.1 h.reader_isSome
    obtain ⟨buf', len', r', e, heq, heof, hfull⟩ :=
      fillLoop_eof (compact st).buf (compact st).len r (inv_compact h.toInv).len_le
    have hbuf : (compact st).buf.length = 2 * st.chunker.params.max :=
      (inv_compact h.toInv).buf_len
    rw [fill_of_lt h.toInv hmany, hr, h.eof_eq] at hfill
    simp only [heq, Bool.false_eq_true, if_false] at hfill
    have hst := Except.ok.inj hfill
    have hlen' : st'.len = len' := hst ▸ rfl
    have hcursor : st'.cursor = 0 := hst ▸ rfl
    have hreader : st'.reader = r' := hst ▸ rfl
    have hend : st'.eof = e := hst ▸ rfl
    have hready : (window st').length = len' := by
      rw [length_window hinv, hlen', hcursor, Nat.sub_zero]
    cases e with
    | true =>
      refine .inl ⟨hend, ?_⟩
      have hrest' : (rest st).length = len' := by
        rw [← hrest, rest, unread, hinv.eof_iff hend, List.length_append, hready]
        simp
      have := heof rfl
      omega
    | false =>
      obtain ⟨hfull', hsome⟩ := hfull rfl
      exact .inr ⟨⟨hinv, hend, hreader ▸ hsome⟩, by omega, by omega⟩

/-- After `fill`, `next_chunk` only moves the cursor over the chunk it yields. -/
theorem nextChunk_eq {st st' : State} {chunk : List UInt8}
    (h : nextChunk st = .ok (some chunk, st')) :
    ∃ st₁, fill st = .ok st₁ ∧ st' = { st₁ with cursor := st₁.cursor + chunk.length } := by
  obtain ⟨st₁, hfill, h⟩ := bind_eq_ok.1 h
  refine ⟨st₁, hfill, ?_⟩
  split_ifs at h
  · cases h
  obtain ⟨data, -, h⟩ := bind_eq_ok.1 h
  obtain ⟨length, -, h⟩ := bind_eq_ok.1 h
  obtain ⟨found, hslice, h⟩ := bind_eq_ok.1 h
  cases h
  unfold slice at hslice
  split_ifs at hslice with hle
  cases hslice
  rw [List.drop_zero, List.length_take, Nat.min_eq_left hle.2]

/-- One call of `next_chunk`: it gets to the end of the input, or takes off the chunk that
`boundary` finds on all of the rest. -/
theorem nextChunk_live {st : State} (h : Live st) (hp : st.chunker.params.Valid) :
    ((rest st).length < st.chunker.filled (window st).length ∧
      ∃ chunk st', nextChunk st = .ok (chunk, st') ∧ (chunk.isSome → st'.eof = true)) ∨
    (st.chunker.filled (window st).length ≤ (rest st).length ∧
      ∃ l st', boundary (rest st) st.chunker = .ok l ∧ l ≤ (rest st).length ∧ 0 < l ∧
        nextChunk st = .ok (some ((rest st).take l), st') ∧ Live st' ∧
        st'.chunker = st.chunker ∧ rest st' = (rest st).drop l ∧
        (window st').length = st.chunker.filled (window st).length - l) := by
  have hmax : 0 < st.chunker.params.max := by
    have := hp.min_pos; have := hp.min_avg; have := hp.avg_max; omega
  obtain ⟨hnone, hsome⟩ := nextChunk_spec h.toInv hp
  obtain ⟨st₁, hfill, -, -, -, ⟨hend, hlt⟩ | ⟨hlive, hready, hle⟩⟩ := fill_live h hmax
  · refine .inl ⟨hlt, ?_⟩
    by_cases hnil : rest st = []
    · obtain ⟨st', hnext⟩ := hnone hnil
      exact ⟨none, st', hnext, nofun⟩
    · obtain ⟨l, st', -, -, hnext, -⟩ := hsome hnil
      obtain ⟨st₂, hfill₂, rfl⟩ := nextChunk_eq hnext
      obtain rfl : st₁ = st₂ := Except.ok.inj (hfill.symm.trans hfill₂)
      exact ⟨_, _, hnext, fun _ => hend⟩
  · refine .inr ⟨hle, ?_⟩
    have hpos : 0 < (rest st).length := by
      unfold Chunker.filled at hle
      split_ifs at hle <;> omega
    have hne : rest st ≠ [] := List.ne_nil_of_length_pos hpos
    obtain ⟨l, st', hl, hl0, hnext, hinv', hc', hrest'⟩ := hsome hne
    obtain ⟨l', hl', -, hlrest, -⟩ := boundary_ok hp hne
    obtain rfl : l = l' := Except.ok.inj (hl.symm.trans hl')
    obtain ⟨st₂, hfill₂, hst⟩ := nextChunk_eq hnext
    obtain rfl : st₁ = st₂ := Except.ok.inj (hfill.symm.trans hfill₂)
    have htake : ((rest st).take l).length = l := by
      rw [List.length_take, Nat.min_eq_left hlrest]
    refine ⟨l, st', hl, hlrest, hl0, hnext, ⟨hinv', hst ▸ hlive.eof_eq,
      hst ▸ hlive.reader_isSome⟩, hc', hrest', ?_⟩
    rw [length_window hinv', ← hready, length_window hlive.toInv, hst]
    simp only [htake]
    omega

/-- **The chunks before an error.** Whatever the reader does, they are those of the reference. -/
theorem collectFailing_eq (n : ℕ) : ∀ {st : State}, Live st → st.chunker.params.Valid →
    collectFailing n st = cutReady st.chunker n (window st).length (rest st) := by
  induction n with
  | zero => intros; rfl
  | succ n ih =>
    intro st h hp
    rw [collectFailing, cutReady]
    obtain ⟨hlt, chunk, st', hnext, hend⟩ | ⟨hle, l, st', hl, hlrest, -, hnext, hlive, hc, hrest,
      hready⟩ := nextChunk_live h hp
    · rw [if_pos hlt, hnext]
      cases chunk with
      | none => rfl
      | some chunk => simp [hend, bind, Except.bind]
    · have hslice := slice_ok (Nat.zero_le l) hlrest
      rw [if_neg (by omega), hnext, hl]
      simp only [bind, Except.bind, hlive.eof_eq, Bool.false_eq_true, if_false, hslice,
        ih hlive (hc ▸ hp), hc, hrest, hready, List.drop_zero]

/-- The reference ends, and its chunks are the first of those of the whole input. -/
theorem cutReady_spec {c : Chunker} (hp : c.params.Valid) : ∀ {n ready : ℕ} {data : List UInt8},
    data.length < n → ∃ cs all, cutReady c n ready data = .ok (some cs) ∧
      cutInMemory c n data = .ok (some all) ∧ cs <+: all
  | n + 1, ready, data, hlt => by
    obtain ⟨all, hall, -⟩ := cutInMemory_spec hp hlt
    rw [cutReady]
    by_cases hfails : data.length < c.filled ready
    · exact ⟨[], all, by rw [if_pos hfails]; rfl, hall, List.nil_prefix⟩
    · have hmax : 0 < c.params.max := by
        have := hp.min_pos; have := hp.min_avg; have := hp.avg_max; omega
      have hne : data ≠ [] := by
        rintro rfl
        unfold Chunker.filled at hfails
        simp only [List.length_nil] at hfails
        split_ifs at hfails <;> omega
      obtain ⟨l, hl, hpos, hle, -⟩ := boundary_ok hp hne
      obtain ⟨cs, rest, hcs, hrest, hprefix⟩ := @cutReady_spec c hp n (c.filled ready - l)
        (data.drop l) (by rw [List.length_drop]; omega)
      refine ⟨data.take l :: cs, data.take l :: rest, ?_, ?_, (List.prefix_cons_inj _).2 hprefix⟩
      · simp [hfails, hl, hcs, slice_ok (Nat.zero_le _) hle, bind, Except.bind, pure, Except.pure]
      · simp [cutInMemory, hne, hl, hrest, slice_ok (Nat.zero_le _) hle, bind, Except.bind, pure,
          Except.pure]

section CutFailing

variable {c : Chunker} (hp : c.params.Valid) (data : List UInt8)

include hp

/-- **A reader that fails after `data`** yields these chunks, whatever it does on the way, and
whatever the buffer that is used again holds. -/
theorem collectFailing_chunksWithBuf (plan : List ReadEvent) (buf : List UInt8) :
    collectFailing (data.length + 1) (chunksWithBuf c ⟨data, plan⟩ buf) =
      .ok (some (c.cutFailing data)) := by
  have hlive : Live (chunksWithBuf c ⟨data, plan⟩ buf) := ⟨inv_chunksWithBuf .., rfl, rfl⟩
  have hwindow : (window (chunksWithBuf c ⟨data, plan⟩ buf)).length = 0 := by
    rw [length_window hlive.toInv]
    rfl
  obtain ⟨cs, -, hcs, -⟩ := @cutReady_spec c hp _ 0 data (Nat.lt_succ_self _)
  rw [collectFailing_eq _ hlive hp, hwindow, rest_chunksWithBuf, Chunker.cutFailing]
  show cutReady c (data.length + 1) 0 data = _
  rw [hcs]

/-- What comes before the error is what would have come without it. -/
theorem cutFailing_isPrefix : c.cutFailing data <+: c.cut data := by
  obtain ⟨cs, all, hcs, hall, hprefix⟩ := @cutReady_spec c hp _ 0 data (Nat.lt_succ_self _)
  rw [Chunker.cutFailing, hcs, Chunker.cut, hall]
  exact hprefix

/-- Nothing comes before the error if the buffer was not filled once, and something otherwise. -/
theorem cutFailing_eq_nil_iff : c.cutFailing data = [] ↔ data.length < 2 * c.params.max := by
  have hmax : 0 < c.params.max := by
    have := hp.min_pos; have := hp.min_avg; have := hp.avg_max; omega
  have hfilled : c.filled 0 = 2 * c.params.max := by rw [Chunker.filled, if_pos hmax]
  obtain ⟨cs, -, hcs, -⟩ := @cutReady_spec c hp _ 0 data (Nat.lt_succ_self _)
  rw [Chunker.cutFailing, hcs, ← hfilled]
  rw [cutReady] at hcs
  by_cases hfails : data.length < c.filled 0
  · rw [if_pos hfails] at hcs
    cases hcs
    exact iff_of_true rfl hfails
  · rw [if_neg hfails] at hcs
    obtain ⟨l, -, hcs⟩ := bind_eq_ok.1 hcs
    obtain ⟨chunk, -, hcs⟩ := bind_eq_ok.1 hcs
    obtain ⟨rest, -, hcs⟩ := bind_eq_ok.1 hcs
    cases rest with
    | none => cases hcs
    | some rest =>
      cases hcs
      exact iff_of_false (List.cons_ne_nil _ _) hfails

end CutFailing

end Chunking
end Kist
