import Kist.Chunker.Boundary

/-!
# Chunking a stream

`State::fill` keeps at least `max` bytes after the cursor until the reader is exhausted, and
`next_chunk` cuts the window at its boundary. A reader may deliver any number of bytes it likes and
may be interrupted, and the buffer it fills is reused without being cleared.

The window `buf[cursor..len]` followed by what the reader still holds is the *rest* of the input.
`fill` leaves the rest alone and `next_chunk` takes off the chunk that `boundary` finds on the whole
rest, so the cuts are those of `cutInMemory`, whatever the reader does.
-/

namespace Kist
namespace Chunking

open Checked

/-! ### Readers -/

/-- What a reader does on one call: fail with `Interrupted`, or deliver up to `n + 1` bytes. -/
inductive ReadEvent
  | interrupted
  | upTo (n : ℕ)
  deriving DecidableEq

/-- A reader over the bytes `rest`. `plan` is its behaviour on the next calls; a reader that has
gone through its plan fills the whole buffer it is given. -/
structure Reader where
  rest : List UInt8
  plan : List ReadEvent
  deriving DecidableEq

/-- The result of one `read`: `none` is `ErrorKind::Interrupted`, no bytes is the end of input. -/
def Reader.read (r : Reader) (cap : ℕ) : Option (List UInt8) × Reader :=
  match r.plan with
  | .interrupted :: plan => (none, ⟨r.rest, plan⟩)
  | .upTo n :: plan =>
    (some (r.rest.take (min (n + 1) cap)), ⟨r.rest.drop (min (n + 1) cap), plan⟩)
  | [] => (some (r.rest.take cap), ⟨r.rest.drop cap, []⟩)

theorem Reader.read_none {r r' : Reader} {cap : ℕ} (h : r.read cap = (none, r')) :
    r'.rest = r.rest ∧ r'.plan.length < r.plan.length := by
  unfold Reader.read at h
  split at h
  · next plan heq => cases h; simp [heq]
  · cases h
  · cases h

/-- A read that is not interrupted delivers a prefix of the rest, not longer than asked for, and
empty only at the end of input. -/
theorem Reader.read_some {r r' : Reader} {cap : ℕ} {bs : List UInt8} (hcap : 0 < cap)
    (h : r.read cap = (some bs, r')) :
    bs ++ r'.rest = r.rest ∧ bs.length ≤ cap ∧ r'.plan.length ≤ r.plan.length ∧
      (bs = [] → r.rest = []) := by
  have key : ∀ k, 0 < k → r.rest.take k = [] → r.rest = [] := fun k hk hnil => by
    rcases List.take_eq_nil_iff.1 hnil with h0 | h0
    · omega
    · exact h0
  unfold Reader.read at h
  split at h
  · cases h
  · next n plan heq =>
    cases h
    refine ⟨List.take_append_drop _ _, ?_, by simp [heq], key _ (by omega)⟩
    rw [List.length_take]; omega
  · cases h
    refine ⟨List.take_append_drop _ _, ?_, by simp, key _ hcap⟩
    rw [List.length_take]; omega

/-! ### The state -/

/-- `State`: the buffer, its valid length, and the position of the next chunk. -/
structure State where
  chunker : Chunker
  reader : Option Reader
  buf : List UInt8
  len : ℕ
  cursor : ℕ
  eof : Bool

/-- `vec.resize(n, 0)`. -/
def resize (buf : List UInt8) (n : ℕ) : List UInt8 :=
  buf.take n ++ List.replicate (n - buf.length) 0

theorem length_resize (buf : List UInt8) (n : ℕ) : (resize buf n).length = n := by
  simp [resize]; omega

/-- `Chunker::chunks_with_buf`: start on `reader`, reusing `buf` without clearing it. -/
def chunksWithBuf (c : Chunker) (reader : Reader) (buf : List UInt8) : State :=
  { chunker := c, reader := some reader, buf := resize buf (2 * c.params.max), len := 0,
    cursor := 0, eof := false }

/-- `buf[at..at + bs.len()] = bs`. -/
def splice (buf : List UInt8) (at' : ℕ) (bs : List UInt8) : List UInt8 :=
  buf.take at' ++ bs ++ buf.drop (at' + bs.length)

/-- The reading loop of `fill`: read until the buffer is full or the reader returns no bytes. -/
def fillLoop (buf : List UInt8) (len : ℕ) (r : Reader) : List UInt8 × ℕ × Option Reader × Bool :=
  if _h : len < buf.length then
    match _hr : r.read (buf.length - len) with
    | (none, r') => fillLoop buf len r'
    | (some [], _) => (buf, len, none, true)
    | (some (b :: bs), r') => fillLoop (splice buf len (b :: bs)) (len + (b :: bs).length) r'
  else (buf, len, some r, false)
termination_by r.plan.length + (buf.length - len)
decreasing_by
  · have := (Reader.read_none _hr).2; omega
  · obtain ⟨-, hle, hplan, -⟩ := Reader.read_some (by omega) _hr
    simp only [splice, List.length_append, List.length_take, List.length_drop] at *
    simp only [List.length_cons] at *
    omega

/-- `State::fill`: at least `max` bytes after the cursor unless the input is exhausted. -/
def fill (st : State) : Except Fault State := do
  let remaining ← sub st.len st.cursor
  if remaining ≥ st.chunker.params.max then return st
  -- `buf.copy_within(cursor..len, 0)`
  let moved ← slice st.buf st.cursor st.len
  let st := { st with buf := splice st.buf 0 moved, cursor := 0, len := remaining }
  if st.eof then return st
  match st.reader with
  | none => return { st with eof := true }
  | some r =>
    let (buf, len, reader, eof) := fillLoop st.buf st.len r
    return { st with buf, len, reader, eof }

/-- `State::next_chunk`. -/
def nextChunk (st : State) : Except Fault (Option (List UInt8) × State) := do
  let st ← fill st
  if st.len = 0 then return (none, st)
  let data ← slice st.buf st.cursor st.len
  let length ← boundary data st.chunker
  let chunk ← slice data 0 length
  return (some chunk, { st with cursor := st.cursor + length })

/-- The iterator driven to its end: up to `n` calls of `next_chunk`. -/
def collect : ℕ → State → Except Fault (Option (List (List UInt8)))
  | 0, _ => return none
  | n + 1, st => do
    match ← nextChunk st with
    | (none, _) => return some []
    | (some chunk, st) => return (← collect n st).map (chunk :: ·)

/-- The reference: `boundary` iterated over the whole remaining input, up to `n` times. -/
def cutInMemory (c : Chunker) : ℕ → List UInt8 → Except Fault (Option (List (List UInt8)))
  | 0, _ => return none
  | n + 1, data => do
    if data = [] then return some []
    let length ← boundary data c
    let chunk ← slice data 0 length
    return (← cutInMemory c n (data.drop length)).map (chunk :: ·)

/-- The chunks of an input, for callers that read all of it. -/
def Chunker.cut (c : Chunker) (data : List UInt8) : List (List UInt8) :=
  match cutInMemory c (data.length + 1) data with
  | .ok (some cs) => cs
  | _ => []

/-! ### The invariant -/

/-- What the buffer holds after the cursor. -/
def window (st : State) : List UInt8 := (st.buf.take st.len).drop st.cursor

/-- What the reader still holds. -/
def unread (st : State) : List UInt8 := (st.reader.map Reader.rest).getD []

/-- The input that has not been cut yet. -/
def rest (st : State) : List UInt8 := window st ++ unread st

/-- The window lies in the buffer, the buffer holds two maximal chunks, and a reader that was
dropped had reached its end. -/
structure Inv (st : State) : Prop where
  cursor_le : st.cursor ≤ st.len
  len_le : st.len ≤ st.buf.length
  buf_len : st.buf.length = 2 * st.chunker.params.max
  eof_iff : st.eof = true → st.reader = none

theorem length_window {st : State} (h : Inv st) : (window st).length = st.len - st.cursor := by
  rw [window, List.length_drop, List.length_take, Nat.min_eq_left h.len_le]

theorem inv_chunksWithBuf (c : Chunker) (r : Reader) (buf : List UInt8) :
    Inv (chunksWithBuf c r buf) :=
  ⟨le_rfl, Nat.zero_le _, length_resize _ _, by simp [chunksWithBuf]⟩

theorem rest_chunksWithBuf (c : Chunker) (r : Reader) (buf : List UInt8) :
    rest (chunksWithBuf c r buf) = r.rest := by
  simp [rest, window, unread, chunksWithBuf]

theorem length_splice {buf : List UInt8} {i : ℕ} {bs : List UInt8}
    (h : i + bs.length ≤ buf.length) :
    (splice buf i bs).length = buf.length := by
  simp [splice, List.length_take, List.length_drop]; omega

theorem take_splice {buf : List UInt8} {i : ℕ} {bs : List UInt8} (h : i ≤ buf.length) :
    (splice buf i bs).take (i + bs.length) = buf.take i ++ bs := by
  have hlen : (buf.take i ++ bs).length = i + bs.length := by
    rw [List.length_append, List.length_take, Nat.min_eq_left h]
  rw [splice, ← hlen, List.take_left]

theorem fillLoop_interrupted {buf : List UInt8} {len : ℕ} {r r' : Reader} (h : len < buf.length)
    (hr : r.read (buf.length - len) = (none, r')) : fillLoop buf len r = fillLoop buf len r' := by
  rw [fillLoop]
  simp only [h, dif_pos]
  split <;> simp_all

theorem fillLoop_end {buf : List UInt8} {len : ℕ} {r r' : Reader} (h : len < buf.length)
    (hr : r.read (buf.length - len) = (some [], r')) :
    fillLoop buf len r = (buf, len, none, true) := by
  rw [fillLoop]
  simp only [h, dif_pos]
  split <;> simp_all

theorem fillLoop_read {buf : List UInt8} {len : ℕ} {r r' : Reader} {b : UInt8} {bs : List UInt8}
    (h : len < buf.length) (hr : r.read (buf.length - len) = (some (b :: bs), r')) :
    fillLoop buf len r = fillLoop (splice buf len (b :: bs)) (len + (b :: bs).length) r' := by
  rw [fillLoop]
  simp only [h, dif_pos]
  split <;> simp_all

theorem fillLoop_full {buf : List UInt8} {len : ℕ} {r : Reader} (h : ¬len < buf.length) :
    fillLoop buf len r = (buf, len, some r, false) := by
  rw [fillLoop]
  simp [h]

/-- The reading loop appends what it reads to the valid bytes. It ends with a full buffer or with
an exhausted reader. -/
theorem fillLoop_spec (buf : List UInt8) (len : ℕ) (r : Reader) (hlen : len ≤ buf.length) :
    ∃ buf' len' r' e, fillLoop buf len r = (buf', len', r', e) ∧ buf'.length = buf.length ∧
      len' ≤ buf'.length ∧ (e = true → r' = none) ∧
      buf'.take len' ++ (r'.map Reader.rest).getD [] = buf.take len ++ r.rest ∧
      (len' = buf'.length ∨ r' = none) := by
  induction buf, len, r using fillLoop.induct with
  | case1 buf len r h r' hr ih =>
    obtain ⟨hrest, -⟩ := Reader.read_none hr
    obtain ⟨buf', len', r'', e, heq, h1, h2, h3, h4, h5⟩ := ih hlen
    exact ⟨buf', len', r'', e, (fillLoop_interrupted h hr).trans heq, h1, h2, h3,
      by rw [h4, hrest], h5⟩
  | case2 buf len r h r' hr =>
    obtain ⟨hrest, -, -, hnil⟩ := Reader.read_some (by omega) hr
    refine ⟨buf, len, none, true, fillLoop_end h hr, rfl, hlen, fun _ => rfl, ?_, .inr rfl⟩
    simp [hnil rfl]
  | case3 buf len r h b bs r' hr ih =>
    obtain ⟨hrest, hle, -, -⟩ := Reader.read_some (by omega) hr
    have hsp : (splice buf len (b :: bs)).length = buf.length := length_splice (by omega)
    obtain ⟨buf', len', r'', e, heq, h1, h2, h3, h4, h5⟩ := ih (by rw [hsp]; omega)
    refine ⟨buf', len', r'', e, (fillLoop_read h hr).trans heq, h1.trans hsp, h2, h3, ?_, h5⟩
    rw [h4, take_splice hlen, List.append_assoc, hrest]
  | case4 buf len r h =>
    exact ⟨buf, len, some r, false, fillLoop_full h, rfl, hlen, by simp, by simp,
      .inl (by omega)⟩

/-- The state after `copy_within`: the window is moved to the front of the buffer. -/
def compact (st : State) : State :=
  { st with buf := splice st.buf 0 (window st), cursor := 0, len := st.len - st.cursor }

theorem window_compact {st : State} (h : Inv st) : window (compact st) = window st := by
  have := @take_splice st.buf 0 (window st) (Nat.zero_le _)
  rwa [Nat.zero_add, length_window h, List.take_zero, List.nil_append] at this

theorem inv_compact {st : State} (h : Inv st) : Inv (compact st) := by
  have hcl := h.cursor_le
  have hll := h.len_le
  have hbuf : (splice st.buf 0 (window st)).length = st.buf.length :=
    length_splice (by rw [length_window h]; omega)
  refine ⟨Nat.zero_le _, ?_, hbuf.trans h.buf_len, h.eof_iff⟩
  change st.len - st.cursor ≤ (splice st.buf 0 (window st)).length
  omega

theorem rest_compact {st : State} (h : Inv st) : rest (compact st) = rest st := by
  rw [rest, window_compact h]; rfl

/-- `fill` on a window shorter than `max`. -/
theorem fill_of_lt {st : State} (h : Inv st)
    (hlt : ¬st.len - st.cursor ≥ st.chunker.params.max) :
    fill st = .ok (if st.eof then compact st else
      match st.reader with
      | none => { compact st with eof := true }
      | some r =>
        let (buf, len, reader, eof) := fillLoop (compact st).buf (compact st).len r
        { compact st with buf, len, reader, eof }) := by
  have hslice : slice st.buf st.cursor st.len = .ok (window st) := slice_ok h.cursor_le h.len_le
  simp only [fill, sub_ok h.cursor_le, hslice, bind, Except.bind, hlt, if_false, pure, Except.pure]
  cases he : st.eof
  · cases hr : st.reader <;> simp [compact, he, hr]
  · simp [compact, he]

theorem len_eq_zero_iff {st : State} (h : Inv st) (hc : st.cursor = 0) :
    st.len = 0 ↔ window st = [] := by
  rw [← List.length_eq_zero_iff, length_window h, hc, Nat.sub_zero]

/-- `fill` never faults and does not touch the rest of the input. Afterwards the window holds at
least `max` bytes or all of the rest. -/
theorem fill_spec {st : State} (hinv : Inv st) (hmax : 0 < st.chunker.params.max) :
    ∃ st', fill st = .ok st' ∧ Inv st' ∧ st'.chunker = st.chunker ∧ rest st' = rest st ∧
      (st.chunker.params.max ≤ (window st').length ∨ unread st' = []) ∧
      (st'.len = 0 ↔ window st' = []) := by
  by_cases hmany : st.len - st.cursor ≥ st.chunker.params.max
  · have hw := length_window hinv
    refine ⟨st, ?_, hinv, rfl, rfl, .inl (by omega), ?_⟩
    · simp [fill, sub_ok hinv.cursor_le, hmany, bind, Except.bind, pure, Except.pure]
    · rw [← List.length_eq_zero_iff, hw]; omega
  have hcomp := inv_compact hinv
  rw [fill_of_lt hinv hmany]
  cases hr : st.reader with
  | none =>
    -- nothing is left to read: the window is all of the rest
    have hun : ∀ e, unread { compact st with eof := e } = [] := fun e => by
      simp [unread, compact, hr]
    have hinv' : Inv { compact st with eof := true } :=
      ⟨hcomp.cursor_le, hcomp.len_le, hcomp.buf_len, fun _ => hr⟩
    cases he : st.eof with
    | true => exact ⟨_, rfl, hcomp, rfl, rest_compact hinv, .inr (hun (compact st).eof),
        len_eq_zero_iff hcomp rfl⟩
    | false => exact ⟨_, rfl, hinv', rfl, rest_compact hinv, .inr (hun true),
        len_eq_zero_iff hinv' rfl⟩
  | some r =>
    have he : st.eof = false := by
      cases h : st.eof with
      | false => rfl
      | true => rw [hinv.eof_iff h] at hr; cases hr
    obtain ⟨buf', len', r', e, heq, h1, h2, h3, h4, h5⟩ :=
      fillLoop_spec (compact st).buf (compact st).len r hcomp.len_le
    have hinv' : Inv { compact st with buf := buf', len := len', reader := r', eof := e } :=
      ⟨Nat.zero_le _, h2, h1.trans hcomp.buf_len, h3⟩
    refine ⟨_, by simp only [he, heq, Bool.false_eq_true, if_false], hinv', rfl, ?_, ?_,
      len_eq_zero_iff hinv' rfl⟩
    · have hun : unread st = r.rest := by simp [unread, hr]
      rw [← rest_compact hinv]
      exact h4.trans (congrArg _ hun.symm)
    · rcases h5 with h | h
      · refine .inl ?_
        rw [length_window hinv']
        change _ ≤ len' - 0
        have := hcomp.buf_len
        change (compact st).buf.length = 2 * st.chunker.params.max at this
        omega
      · exact .inr (by simp [unread, h])

/-- `next_chunk` ends exactly when nothing is left, and otherwise takes off the chunk that
`boundary` finds on the whole rest. -/
theorem nextChunk_spec {st : State} (hinv : Inv st) (hp : st.chunker.params.Valid) :
    (rest st = [] → ∃ st', nextChunk st = .ok (none, st')) ∧
    (rest st ≠ [] → ∃ l st', boundary (rest st) st.chunker = .ok l ∧ 0 < l ∧
      nextChunk st = .ok (some ((rest st).take l), st') ∧ Inv st' ∧ st'.chunker = st.chunker ∧
      rest st' = (rest st).drop l) := by
  have hmax : 0 < st.chunker.params.max := by
    have := hp.min_pos; have := hp.min_avg; have := hp.avg_max; omega
  obtain ⟨st1, hfill, hinv1, hc, hrest, hwin, hzero⟩ := fill_spec hinv hmax
  have hlen := length_window hinv1
  constructor
  · intro hnil
    have hw : window st1 = [] := by
      rw [← hrest, rest, List.append_eq_nil_iff] at hnil
      exact hnil.1
    refine ⟨st1, ?_⟩
    simp [nextChunk, hfill, hzero.2 hw, bind, Except.bind, pure, Except.pure]
  · intro hne
    have hwne : window st1 ≠ [] := fun hw => by
      rcases hwin with h | h
      · rw [hw] at h; simp at h; omega
      · rw [← hrest, rest, hw, h] at hne; exact hne rfl
    have hbd : boundary (rest st) st.chunker = boundary (window st1) st1.chunker := by
      rw [← hrest, rest, hc]
      rcases hwin with h | h
      · exact boundary_append hp h _
      · rw [h, List.append_nil]
    obtain ⟨l, hl, hpos, hle, -, -⟩ := boundary_ok (c := st1.chunker) (hc ▸ hp) hwne
    have htake : (rest st).take l = (window st1).take l := by
      rw [← hrest, rest, List.take_append_of_le_length hle]
    refine ⟨l, { st1 with cursor := st1.cursor + l }, by rw [hbd, hl], hpos, ?_, ?_, hc, ?_⟩
    · have hs : slice st1.buf st1.cursor st1.len = .ok (window st1) :=
        slice_ok hinv1.cursor_le hinv1.len_le
      have hlen0 : st1.len ≠ 0 := fun h => hwne (hzero.1 h)
      simp [nextChunk, hfill, hs, hl, slice_ok (Nat.zero_le _) hle, hlen0, htake, bind,
        Except.bind, pure, Except.pure]
    · exact ⟨by simp only; omega, hinv1.len_le, hinv1.buf_len, hinv1.eof_iff⟩
    · rw [← hrest, show rest st1 = window st1 ++ unread st1 from rfl,
        List.drop_append_of_le_length hle]
      simp [rest, window, unread, List.drop_drop]

/-- The chunks of the stream are those of the in-memory reference. -/
theorem collect_eq (n : ℕ) : ∀ {st : State}, Inv st → st.chunker.params.Valid →
    collect n st = cutInMemory st.chunker n (rest st) := by
  induction n with
  | zero => intros; rfl
  | succ n ih =>
    intro st hinv hp
    obtain ⟨hend, hcut⟩ := nextChunk_spec hinv hp
    by_cases hnil : rest st = []
    · obtain ⟨st', h⟩ := hend hnil
      simp [collect, cutInMemory, h, hnil, bind, Except.bind, pure, Except.pure]
    · obtain ⟨l, st', hl, -, hnext, hinv', hc, hrest⟩ := hcut hnil
      obtain ⟨l', hl', -, hle, -, -⟩ := boundary_ok hp hnil
      have hll : l' = l := by rw [hl] at hl'; cases hl'; rfl
      have hrec := ih hinv' (hc ▸ hp)
      rw [hrest, hc] at hrec
      simp only [collect, cutInMemory, hnext, hnil, hl, if_false, bind, Except.bind,
        slice_ok (Nat.zero_le _) (hll ▸ hle), hrec, List.drop_zero, pure, Except.pure]

/-- The in-memory reference cuts a finite input completely, into chunks of the promised sizes. -/
theorem cutInMemory_spec {c : Chunker} (hp : c.params.Valid) :
    ∀ {n : ℕ} {data : List UInt8}, data.length < n →
      ∃ cs, cutInMemory c n data = .ok (some cs) ∧ cs.flatten = data ∧
        (∀ x ∈ cs, 0 < x.length ∧ x.length ≤ c.params.max) ∧
        (∀ x ∈ cs.dropLast, c.params.min ≤ x.length)
  | n + 1, data, hlt => by
    by_cases hnil : data = []
    · exact ⟨[], by simp [cutInMemory, hnil, pure, Except.pure], by simp [hnil], by simp, by simp⟩
    obtain ⟨l, hl, hpos, hle, hmax, hmin⟩ := boundary_ok hp hnil
    obtain ⟨cs, hcs, hflat, hsize, hshort⟩ :=
      @cutInMemory_spec c hp n (data.drop l) (by rw [List.length_drop]; omega)
    have hlen : (data.take l).length = l := by rw [List.length_take]; omega
    refine ⟨data.take l :: cs, ?_, ?_, ?_, ?_⟩
    · simp [cutInMemory, hnil, hl, hcs, slice_ok (Nat.zero_le _) hle, bind, Except.bind, pure,
        Except.pure]
    · rw [List.flatten_cons, hflat, List.take_append_drop]
    · intro x hx
      rcases List.mem_cons.1 hx with rfl | hx
      · omega
      · exact hsize x hx
    · cases cs with
      | nil => simp
      | cons y ys =>
        intro x hx
        rw [List.dropLast_cons_cons] at hx
        rcases List.mem_cons.1 hx with rfl | hx
        · have hmore : data.drop l ≠ [] := fun h => by
            have h0 := (hsize y (by simp)).1
            rw [h, List.flatten_cons, List.append_eq_nil_iff] at hflat
            rw [hflat.1] at h0
            simp at h0
          rw [hlen]
          exact hmin (by rw [← List.length_pos_iff, List.length_drop] at hmore; omega)
        · exact hshort x hx

/-- The chunks of an input make up the input. -/
theorem flatten_cut {c : Chunker} (hp : c.params.Valid) (data : List UInt8) :
    (c.cut data).flatten = data := by
  obtain ⟨cs, hcs, hflat, -⟩ := cutInMemory_spec hp (Nat.lt_succ_self data.length)
  simpa [Chunker.cut, hcs] using hflat

/-- No chunk of an input is empty or longer than `max`. -/
theorem length_of_mem_cut {c : Chunker} (hp : c.params.Valid) {data x : List UInt8}
    (hx : x ∈ c.cut data) : 0 < x.length ∧ x.length ≤ c.params.max := by
  obtain ⟨cs, hcs, -, hsize, -⟩ := cutInMemory_spec hp (Nat.lt_succ_self data.length)
  simp only [Chunker.cut, hcs] at hx
  exact hsize x hx

/-- A reference run that ended is not changed by a larger bound on its length. -/
theorem cutInMemory_mono {c : Chunker} {m : ℕ} : ∀ {n : ℕ} {data : List UInt8}
    {cs : List (List UInt8)}, n ≤ m → cutInMemory c n data = .ok (some cs) →
      cutInMemory c m data = .ok (some cs) := by
  induction m with
  | zero =>
    intro n data cs hn h
    rwa [Nat.le_zero.1 hn] at h
  | succ m ih =>
    intro n data cs hn h
    cases n with
    | zero => cases h
    | succ n =>
      by_cases hnil : data = []
      · simpa [cutInMemory, hnil] using h
      simp only [cutInMemory, hnil, if_false, bind, Except.bind] at h ⊢
      cases hl : boundary data c with
      | error e => rw [hl] at h; cases h
      | ok l =>
        rw [hl] at h
        simp only at h ⊢
        cases hs : slice data 0 l with
        | error e => rw [hs] at h; cases h
        | ok chunk =>
          rw [hs] at h
          simp only at h ⊢
          cases hrec : cutInMemory c n (data.drop l) with
          | error e => rw [hrec] at h; cases h
          | ok r =>
            cases r with
            | none => rw [hrec] at h; cases h
            | some tl =>
              rw [ih (Nat.le_of_succ_le_succ hn) hrec]
              rwa [hrec] at h

/-- **Chunking a stream.** For accepted parameters, whatever the reader does and whatever the
reused buffer holds, the iterator ends without a fault; its chunks are those of `boundary` iterated
over the input in memory, they concatenate to the input, none is empty or longer than `max`, and
only the last may be shorter than `min`. -/
theorem collect_chunksWithBuf {p : ChunkerParams} (hp : p.validate = .ok ()) (input : List UInt8)
    (plan : List ReadEvent) (buf : List UInt8) :
    ∃ c cs, Chunker.new p = .ok c ∧
      (∀ n, input.length < n →
        collect n (chunksWithBuf c ⟨input, plan⟩ buf) = .ok (some cs) ∧
        cutInMemory c n input = .ok (some cs)) ∧
      cs.flatten = input ∧ (∀ x ∈ cs, 0 < x.length ∧ x.length ≤ p.max) ∧
      (∀ x ∈ cs.dropLast, p.min ≤ x.length) := by
  have hv := ChunkerParams.valid_of_validate hp
  obtain ⟨c, hc, rfl⟩ := new_ok hv
  obtain ⟨cs, hcs, hflat, hsize, hshort⟩ := cutInMemory_spec hv (Nat.lt_succ_self input.length)
  refine ⟨c, cs, hc, fun n hn => ?_, hflat, hsize, hshort⟩
  have hmem : cutInMemory c n input = .ok (some cs) := cutInMemory_mono hn hcs
  refine ⟨?_, hmem⟩
  rw [collect_eq n (inv_chunksWithBuf c ⟨input, plan⟩ buf) hv, rest_chunksWithBuf]
  exact hmem

/-- Fifteen hundred bytes, chunks of up to a kibibyte, and a reader that is interrupted and then
delivers one byte before the rest. -/
theorem collect_chunksWithBuf_kibibyte :
    ∃ c cs, Chunker.new ⟨64, 256, 1024⟩ = .ok c ∧
      (∀ n, 1500 < n →
        collect n (chunksWithBuf c ⟨List.replicate 1500 7, [.interrupted, .upTo 0]⟩ [9, 9]) =
          .ok (some cs) ∧
        cutInMemory c n (List.replicate 1500 7) = .ok (some cs)) ∧
      cs.flatten = List.replicate 1500 7 ∧ (∀ x ∈ cs.dropLast, 64 ≤ x.length) ∧
      1 < cs.length := by
  obtain ⟨c, cs, hc, hcollect, hflat, hsize, hshort⟩ := @collect_chunksWithBuf ⟨64, 256, 1024⟩
    (by decide) (List.replicate 1500 7) [.interrupted, .upTo 0] [9, 9]
  rw [List.length_replicate] at hcollect
  refine ⟨c, cs, hc, hcollect, hflat, hshort, ?_⟩
  have hlen := congrArg List.length hflat
  rw [List.length_replicate] at hlen
  -- one chunk does not hold all of the input
  rcases cs with _ | ⟨x, _ | ⟨y, cs⟩⟩
  · cases hlen
  · rw [List.flatten_singleton] at hlen
    exact absurd (hsize x List.mem_cons_self).2 (by simp [hlen])
  · simp

end Chunking
end Kist
