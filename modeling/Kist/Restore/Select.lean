import Kist.Filter
import Kist.Storage

/-!
# What a restore selects

`RestoreOptions` and `Select` of `kist-core::restore`: each node of a snapshot gets its position in
the patterns of inclusion and of exclusion from the position of the directory above it.

* `Pos.At`: a position stands for a path; `At.child` says what a step down does to it.
* `Pos.At.visit`: a branch that is not walked holds nothing that is selected.
-/

namespace Kist

/-- `RestoreOptions`. An empty list of patterns of inclusion selects everything. -/
structure RestoreOptions where
  includes : PathFilter
  excludes : PathFilter
  subtree : List Bytes

/-- `Pos`: the position of a node in both filters, whether it is selected, and the patterns of
inclusion that match it or a node above and have not been credited yet. -/
structure Pos where
  includes : FilterState
  excludes : FilterState
  selected : Bool
  pending : List ℕ
  deriving DecidableEq, Repr

/-- `Select`: the two filters, and which patterns of inclusion have selected something. -/
structure Select where
  includes : PathFilter
  excludes : PathFilter
  hit : List Bool

/-- `PathFilter::is_negated`. -/
def PathFilter.isNegated (f : PathFilter) (p : ℕ) : Bool :=
  f.patterns[p]?.any Pattern.negated

/-- `PathFilter::pattern`. -/
def PathFilter.pattern (f : PathFilter) (p : ℕ) : String :=
  f.patterns[p]?.elim "" Pattern.text

namespace Select

/-- `Select::new`: inclusion by negated patterns alone would select nothing. -/
def new (opts : RestoreOptions) : Except CoreError Select :=
  if opts.includes.patterns ≠ [] ∧ ∀ p ∈ opts.includes.patterns, p.negated then
    .error (.usage ("every include pattern is negated: a `!` pattern only takes back what an " ++
      "earlier include selected, so nothing would be restored"))
  else .ok ⟨opts.includes, opts.excludes, List.replicate opts.includes.patterns.length false⟩

variable (s : Select)

/-- `Select::start`. -/
def start : Pos where
  includes := s.includes.start
  excludes := s.excludes.start
  selected := s.includes.patterns.isEmpty
  pending := []

/-- The pattern has selected something. -/
def isHit (p : ℕ) : Bool := s.hit.getD p false

/-- The patterns still to be credited at a node that the patterns `matched` match. -/
def pendingWith (carried matched : List ℕ) : List ℕ :=
  matched.foldl (fun pending p =>
    if !s.includes.isNegated p && !s.isHit p && !pending.contains p then pending ++ [p]
    else pending) (carried.filter fun p => !s.isHit p)

/-- `Select::child`: `none` for a node that is excluded. -/
def child (parent : Pos) (name : Bytes) : Option Pos :=
  let excludes := s.excludes.descend parent.excludes name
  if excludes.isMatch then none
  else
    let includes := s.includes.descend parent.includes name
    some
      { includes, excludes
        selected := includes.decision.getD parent.selected
        pending := s.pendingWith parent.pending includes.matched }

/-- `Select::credit`. -/
def credit (pos : Pos) : Select :=
  if pos.selected then { s with hit := pos.pending.foldl (fun hit p => hit.set p true) s.hit }
  else s

/-- `Select::walk`, from a position on. -/
def walk (pos : Pos) : List Bytes → Option Pos
  | [] => some pos
  | name :: names => (s.child pos name).bind fun pos => walk pos names

/-- `Select::worth_walking`. -/
def worthWalking (pos : Pos) : Bool := pos.selected || pos.includes.positiveAlive

/-- `Select::visit`: `none` for a node that is excluded, or not selected and without anything below
it that could be. -/
def visit (parent : Pos) (entry : Entry) : Option Pos × Select :=
  match s.child parent entry.name with
  | none => (none, s)
  | some pos =>
    (if pos.selected || (entry.kind = .dir && pos.includes.positiveAlive) then some pos else none,
      s.credit pos)

/-- The patterns of inclusion that have selected nothing, by their numbers. -/
def unhit : List ℕ :=
  (List.range s.includes.patterns.length).filter fun p => !s.isHit p && !s.includes.isNegated p

/-- `Select::unmatched`. -/
def unmatched : List String := s.unhit.map s.includes.pattern

end Select

/-! ### The direct definition -/

namespace RestoreOptions

variable (opts : RestoreOptions)

/-- No node down to this path is excluded. -/
def Open (path : List Bytes) : Prop :=
  ∀ p, p ≠ [] → p <+: path → ¬opts.excludes.Selects p

/-- The lowest node down to this path that a pattern of inclusion matches is selected by the last
one that matches it; without patterns every node is. -/
def Included (path : List Bytes) : Prop :=
  opts.includes.patterns = [] ∨ ∃ p, p ≠ [] ∧ p <+: path ∧ opts.includes.Selects p ∧
    ∀ q, p <+: q → q <+: path → q ≠ p → ∀ i, ¬opts.includes.MatchesAt i q

/-- The node at this path is restored. -/
def Chosen (path : List Bytes) : Prop := opts.Open path ∧ opts.Included path

variable {opts} {path : List Bytes} {name : Bytes}

theorem open_nil : opts.Open [] := fun _ hne hp => absurd (List.prefix_nil.1 hp) hne

theorem open_concat :
    opts.Open (path ++ [name]) ↔ opts.Open path ∧ ¬opts.excludes.Selects (path ++ [name]) := by
  constructor
  · exact fun h => ⟨fun p hne hp => h p hne (hp.trans (List.prefix_append _ _)),
      h _ (by simp) List.prefix_rfl⟩
  · rintro ⟨h, hlast⟩ p hne hp
    rcases List.prefix_concat_iff.1 hp with rfl | hp
    · exact hlast
    · exact h p hne hp

theorem Open.mono {path' : List Bytes} (h : opts.Open path') (hp : path <+: path') :
    opts.Open path := fun q hne hq => h q hne (hq.trans hp)

theorem included_nil : opts.Included [] ↔ opts.includes.patterns = [] := by
  constructor
  · rintro (h | ⟨p, hne, hp, -⟩)
    · exact h
    · exact absurd (List.prefix_nil.1 hp) hne
  · exact .inl

theorem not_matchesAt_of_nil (h : opts.includes.patterns = []) (i : ℕ) (p : List Bytes) :
    ¬opts.includes.MatchesAt i p := by
  rintro ⟨pattern, hp, -⟩
  rw [h] at hp
  cases hp

/-- A node that no pattern matches is included as the directory above it is; another one by the
last pattern that matches it. -/
theorem included_concat : opts.Included (path ++ [name]) ↔
    opts.includes.Selects (path ++ [name]) ∨
      (∀ i, ¬opts.includes.MatchesAt i (path ++ [name])) ∧ opts.Included path := by
  constructor
  · rintro (h | ⟨p, hne, hp, hsel, hbelow⟩)
    · exact .inr ⟨fun i => not_matchesAt_of_nil h i _, .inl h⟩
    · rcases List.prefix_concat_iff.1 hp with rfl | hp
      · exact .inl hsel
      · have hlt : path ++ [name] ≠ p := fun h => by
          have := hp.length_le
          rw [← h, List.length_append, List.length_singleton] at this
          omega
        refine .inr ⟨hbelow _ (hp.trans (List.prefix_append _ _)) List.prefix_rfl hlt,
          .inr ⟨p, hne, hp, hsel, fun q hpq hq => hbelow q hpq (hq.trans (List.prefix_append _ _))⟩⟩
  · rintro (h | ⟨hnone, h | ⟨p, hne, hp, hsel, hbelow⟩⟩)
    · exact .inr ⟨_, by simp, List.prefix_rfl, h, fun q hpq hq hne =>
        absurd (hq.eq_of_length_le hpq.length_le) hne⟩
    · exact .inl h
    · refine .inr ⟨p, hne, hp.trans (List.prefix_append _ _), hsel, fun q hpq hq hqp => ?_⟩
      rcases List.prefix_concat_iff.1 hq with rfl | hq
      · exact hnone
      · exact hbelow q hpq hq hqp

theorem Chosen.open (h : opts.Chosen path) : opts.Open path := h.1

/-- What is included below a node that is not included itself lies where a pattern selects it. -/
theorem exists_selects_of_included {rest : List Bytes} (hnot : ¬opts.Included path)
    (h : opts.Included (path ++ rest)) :
    ∃ r, r ≠ [] ∧ r <+: rest ∧ opts.includes.Selects (path ++ r) := by
  induction rest using List.reverseRecOn with
  | nil => exact absurd (by rwa [List.append_nil] at h) hnot
  | append_singleton rest x ih =>
    rw [← List.append_assoc] at h
    rcases included_concat.1 h with h | ⟨-, h⟩
    · exact ⟨rest ++ [x], by simp, List.prefix_rfl, by rwa [← List.append_assoc]⟩
    · obtain ⟨r, hne, hr, hsel⟩ := ih h
      exact ⟨r, hne, hr.trans (List.prefix_append _ _), hsel⟩

end RestoreOptions

/-! ### Positions along a path -/

/-- The selection of a restore with these options. -/
structure Select.For (opts : RestoreOptions) (s : Select) : Prop where
  includes : s.includes = opts.includes
  excludes : s.excludes = opts.excludes

/-- The position stands for this path. -/
structure Pos.At (opts : RestoreOptions) (path : List Bytes) (pos : Pos) : Prop where
  includes : pos.includes = opts.includes.walk opts.includes.start path
  excludes : pos.excludes = opts.excludes.walk opts.excludes.start path
  selected : pos.selected = true ↔ opts.Included path
  isOpen : opts.Open path

section Positions

variable {opts : RestoreOptions} {s : Select} {path : List Bytes} {pos : Pos} {name : Bytes}

theorem Select.for_new (h : Select.new opts = .ok s) : s.For opts := by
  unfold Select.new at h
  split_ifs at h
  cases h
  exact ⟨rfl, rfl⟩

theorem Select.For.credit (hs : s.For opts) (pos : Pos) : (s.credit pos).For opts := by
  unfold Select.credit
  split_ifs
  · exact ⟨hs.includes, hs.excludes⟩
  · exact hs

theorem Select.For.visit (hs : s.For opts) (pos : Pos) (e : Entry) :
    (s.visit pos e).2.For opts := by
  unfold Select.visit
  split
  · exact hs
  · exact hs.credit _

theorem Pos.at_start (hs : s.For opts) : s.start.At opts [] where
  includes := by rw [Select.start, hs.includes]; rfl
  excludes := by rw [Select.start, hs.excludes]; rfl
  selected := by
    rw [RestoreOptions.included_nil, Select.start, hs.includes]
    exact List.isEmpty_iff
  isOpen := RestoreOptions.open_nil

theorem selected_descend (hpos : pos.At opts path) :
    ((opts.includes.descend pos.includes name).decision.getD pos.selected) = true ↔
      opts.Included (path ++ [name]) := by
  have hwalk : opts.includes.descend pos.includes name =
      opts.includes.walk opts.includes.start (path ++ [name]) := by
    rw [hpos.includes, PathFilter.walk_append_singleton]
  have hmatch := @PathFilter.isMatch_walk opts.includes name path
  have hnone := @PathFilter.decision_walk_eq_none opts.includes name path
  rw [RestoreOptions.included_concat, hwalk, ← hnone, ← hmatch, FilterState.isMatch]
  cases hd : (opts.includes.walk opts.includes.start (path ++ [name])).decision with
  | none => simp [hpos.selected]
  | some d => simp

/-- A step down. -/
theorem Pos.At.child (hpos : pos.At opts path) (hs : s.For opts) (name : Bytes) :
    (∀ pos', s.child pos name = some pos' → pos'.At opts (path ++ [name])) ∧
      (s.child pos name = none ↔ ¬opts.Open (path ++ [name])) := by
  have hexcl : s.excludes.descend pos.excludes name =
      opts.excludes.walk opts.excludes.start (path ++ [name]) := by
    rw [hs.excludes, hpos.excludes, PathFilter.walk_append_singleton]
  have hmatch : (s.excludes.descend pos.excludes name).isMatch = true ↔
      opts.excludes.Selects (path ++ [name]) := by rw [hexcl, PathFilter.isMatch_walk]
  have hopen : opts.Open (path ++ [name]) ↔ ¬opts.excludes.Selects (path ++ [name]) := by
    rw [RestoreOptions.open_concat]
    exact ⟨And.right, fun h => ⟨hpos.isOpen, h⟩⟩
  unfold Select.child
  dsimp only
  split_ifs with hx
  · exact ⟨nofun, iff_of_true rfl (by rw [hopen, not_not]; exact hmatch.1 hx)⟩
  · refine ⟨fun pos' h => ?_, iff_of_false (nofun) (by rw [not_not, hopen, ← hmatch]; exact hx)⟩
    cases h
    refine ⟨?_, hexcl, ?_, hopen.2 fun h => hx (hmatch.2 h)⟩
    · rw [hs.includes, hpos.includes, PathFilter.walk_append_singleton]
    · rw [hs.includes]
      exact selected_descend hpos

/-- Going down a whole path. -/
theorem Pos.At.walk (hs : s.For opts) : ∀ {names : List Bytes} {path : List Bytes} {pos : Pos},
    pos.At opts path → (∀ pos', s.walk pos names = some pos' → pos'.At opts (path ++ names)) ∧
      (s.walk pos names = none ↔ ¬opts.Open (path ++ names))
  | [], path, pos, hpos => by
    rw [List.append_nil]
    exact ⟨fun pos' h => by cases h; exact hpos, iff_of_false (nofun) (not_not.2 hpos.isOpen)⟩
  | name :: names, path, pos, hpos => by
    obtain ⟨hsome, hnone⟩ := hpos.child hs name
    have hassoc : path ++ name :: names = path ++ [name] ++ names := by simp
    rw [Select.walk, hassoc]
    cases hc : s.child pos name with
    | none =>
      have hshut : ¬opts.Open (path ++ [name]) := hnone.1 hc
      exact ⟨nofun, iff_of_true rfl fun h =>
        hshut (h.mono (List.prefix_append _ _))⟩
    | some pos' => exact Pos.At.walk hs (hsome pos' hc)

/-- Where nothing below a position is worth walking, nothing below it is selected. -/
theorem Pos.At.worthWalking (hpos : pos.At opts path) {rest : List Bytes}
    (h : opts.Included (path ++ rest)) : Select.worthWalking pos = true := by
  rw [Select.worthWalking, Bool.or_eq_true]
  by_cases hin : opts.Included path
  · exact .inl (hpos.selected.2 hin)
  · obtain ⟨r, hne, -, hsel⟩ := RestoreOptions.exists_selects_of_included hin h
    right
    rw [hpos.includes]
    exact PathFilter.positiveAlive_of_selects hne hsel

/-- **What is walked.** An entry is visited at the position of its path, unless it is excluded, or
is not selected and holds nothing that is. -/
theorem Pos.At.visit (hpos : pos.At opts path) (hs : s.For opts) (e : Entry) :
    (∀ pos', (s.visit pos e).1 = some pos' → pos'.At opts (path ++ [e.name]) ∧
      (e.kind ≠ .dir → opts.Chosen (path ++ [e.name]))) ∧
    ((s.visit pos e).1 = none → ∀ rest, (e.kind = .dir ∨ rest = []) →
      ¬opts.Chosen (path ++ [e.name] ++ rest)) := by
  obtain ⟨hsome, hnone⟩ := hpos.child hs e.name
  unfold Select.visit
  cases hc : s.child pos e.name with
  | none =>
    refine ⟨nofun, fun _ rest _ h => hnone.1 hc ?_⟩
    exact h.open.mono (List.prefix_append _ _)
  | some pos' =>
    have hat := hsome pos' hc
    dsimp only
    split_ifs with hgo
    · refine ⟨fun pos'' h => ?_, nofun⟩
      cases h
      refine ⟨hat, fun hkind => ⟨hat.isOpen, hat.selected.1 ?_⟩⟩
      simpa [hkind] using hgo
    · refine ⟨nofun, fun _ rest hrest h => hgo ?_⟩
      have hworth := hat.worthWalking h.2
      rw [Select.worthWalking] at hworth
      rcases hrest with hdir | rfl
      · simpa [hdir] using hworth
      · rw [List.append_nil] at h
        simp [hat.selected.2 h.2]

end Positions

end Kist
