import Mathlib.Data.List.Infix
import Mathlib.Data.List.DropRight
import Mathlib.Tactic

/-!
# Cutting texts

Texts as lists of letters, and the operations by which a hand-written reader takes them apart: a
literal at the front, the part before the first separator, the letters that are trimmed from both
ends. Each comes with the law that says how the text looks where it succeeds.
-/

namespace Text

variable {α : Type*} [DecidableEq α] {c : α} {s a b : List α}

/-! ### A literal at the front -/

/-- What follows the literal `p`. -/
def stripPrefix (p s : List α) : Option (List α) :=
  if p <+: s then some (s.drop p.length) else none

theorem stripPrefix_eq_some {p rest : List α} : stripPrefix p s = some rest ↔ s = p ++ rest := by
  unfold stripPrefix
  constructor
  · intro h
    split_ifs at h with hp
    obtain ⟨t, rfl⟩ := hp
    rw [List.drop_left] at h
    cases h
    rfl
  · rintro rfl
    rw [if_pos (List.prefix_append p rest), List.drop_left]

theorem stripPrefix_append (p rest : List α) : stripPrefix p (p ++ rest) = some rest :=
  stripPrefix_eq_some.2 rfl

theorem stripPrefix_eq_none {p : List α} (h : ¬p <+: s) : stripPrefix p s = none := if_neg h

/-! ### The first separator -/

/-- The parts before and after the first `c`. -/
def splitOnce (c : α) : List α → Option (List α × List α)
  | [] => none
  | x :: xs => if x = c then some ([], xs) else (splitOnce c xs).map fun p => (x :: p.1, p.2)

theorem splitOnce_eq_none : splitOnce c s = none ↔ c ∉ s := by
  induction s with
  | nil => simp [splitOnce]
  | cons x xs ih =>
    rw [splitOnce, List.mem_cons, not_or]
    split_ifs with h
    · exact iff_of_false nofun fun hn => hn.1 h.symm
    · rw [Option.map_eq_none_iff, ih]
      exact ⟨fun hn => ⟨Ne.symm h, hn⟩, And.right⟩

theorem splitOnce_eq_some : splitOnce c s = some (a, b) ↔ s = a ++ c :: b ∧ c ∉ a := by
  induction s generalizing a with
  | nil => simp [splitOnce]
  | cons x xs ih =>
    rw [splitOnce]
    split_ifs with h
    · subst h
      constructor
      · rintro ⟨⟩
        exact ⟨rfl, List.not_mem_nil⟩
      · rintro ⟨heq, hnot⟩
        cases a with
        | nil =>
          cases heq
          rfl
        | cons y ys =>
          cases heq
          exact absurd List.mem_cons_self hnot
    · rw [Option.map_eq_some_iff]
      constructor
      · rintro ⟨⟨a', b'⟩, hsplit, ⟨⟩⟩
        obtain ⟨rfl, hnot⟩ := ih.1 hsplit
        exact ⟨rfl, fun hc => (List.mem_cons.1 hc).elim (fun e => h e.symm) hnot⟩
      · rintro ⟨heq, hnot⟩
        cases a with
        | nil =>
          cases heq
          exact absurd rfl h
        | cons y ys =>
          cases heq
          exact ⟨(ys, b), ih.2 ⟨rfl, fun hc => hnot (List.mem_cons_of_mem _ hc)⟩, rfl⟩

/-- A text without the separator in front of it. -/
theorem splitOnce_append (h : c ∉ a) : splitOnce c (a ++ c :: b) = some (a, b) :=
  splitOnce_eq_some.2 ⟨rfl, h⟩

/-- The letters before the first `c`. -/
def before (c : α) (s : List α) : List α := s.takeWhile fun x => x ≠ c

theorem notMem_before : c ∉ before c s := fun h => by
  simpa using List.mem_takeWhile_imp h

theorem before_append (h : c ∉ a) : before c (a ++ b) = a ++ before c b := by
  refine List.takeWhile_append_of_pos fun x hx => ?_
  have hne : x ≠ c := fun he => h (he ▸ hx)
  simpa using hne

@[simp] theorem before_cons_self : before c (c :: b) = [] := by simp [before]

/-- Where the text goes on behind the first separator. -/
theorem before_append_cons (h : c ∉ a) : before c (a ++ c :: b) = a := by
  rw [before_append h, before_cons_self, List.append_nil]

theorem mem_of_mem_before {x : α} (h : x ∈ before c s) : x ∈ s :=
  (List.takeWhile_sublist _).subset h

theorem before_append_dropWhile (c : α) (s : List α) :
    before c s ++ s.dropWhile (fun x => x ≠ c) = s := List.takeWhile_append_dropWhile

theorem before_dropWhile (c : α) (s : List α) : before c (s.dropWhile fun x => x ≠ c) = [] := by
  induction s with
  | nil => rfl
  | cons x xs ih =>
    by_cases h : x = c
    · subst h
      simp [before]
    · rw [List.dropWhile_cons_of_pos (by simpa using h)]
      exact ih

theorem before_append_of_mem (h : c ∈ a) : before c (a ++ b) = before c a := by
  obtain ⟨l, r, rfl, hl⟩ := List.eq_append_cons_of_mem h
  rw [List.append_assoc, List.cons_append, before_append_cons hl, before_append_cons hl]

theorem before_of_notMem (h : c ∉ a) : before c a = a := by
  have hall : before c (a ++ []) = a ++ before c [] := before_append h
  rwa [List.append_nil, show before c ([] : List α) = [] from rfl, List.append_nil] at hall

theorem mem_before_append_left {x : α} (h : x ∈ before c a) : x ∈ before c (a ++ b) := by
  by_cases hc : c ∈ a
  · rwa [before_append_of_mem hc]
  · rw [before_append hc]
    exact List.mem_append_left _ (mem_of_mem_before h)

/-- What stands before the separator in one text after another. -/
theorem mem_before_append {x : α} (h : x ∈ before c (a ++ b)) :
    x ∈ before c a ∨ x ∈ before c b := by
  by_cases hc : c ∈ a
  · exact .inl (before_append_of_mem hc ▸ h)
  · rw [before_append hc] at h
    exact (List.mem_append.1 h).imp_left fun hx => (before_of_notMem hc).symm ▸ hx

/-! ### Trimming -/

/-- The text without the letters `c` at both ends. -/
def trimMatches (c : α) (s : List α) : List α :=
  (s.dropWhile fun x => x = c).rdropWhile fun x => x = c

theorem trimMatches_subset : trimMatches c s ⊆ s := fun _ hx =>
  (List.dropWhile_sublist _).subset ((List.rdropWhile_prefix _ _).subset hx)

theorem trimMatches_eq_nil : trimMatches c s = [] ↔ ∀ x ∈ s, x = c := by
  rw [trimMatches, List.rdropWhile_eq_nil_iff]
  constructor
  · intro h x hx
    by_contra hne
    have hmem : ∃ y ∈ s.dropWhile fun x => x = c, y ≠ c := by
      have hdrop : s.dropWhile (fun x => x = c) ≠ [] := fun hnil =>
        hne (by simpa using List.dropWhile_eq_nil_iff.1 hnil x hx)
      exact ⟨_, List.head_mem hdrop, by simpa using List.head_dropWhile_not _ hdrop⟩
    obtain ⟨y, hy, hyc⟩ := hmem
    exact hyc (by simpa using h y hy)
  · intro h x hx
    simpa using h x ((List.dropWhile_sublist _).subset hx)

theorem trimMatches_idem (c : α) (s : List α) :
    trimMatches c (trimMatches c s) = trimMatches c s := by
  rcases (trimMatches c s).eq_nil_or_concat' with hnil | ⟨init, last, hlast⟩
  · rw [hnil]
    rfl
  · -- the first letter that is left is none of those that are trimmed, and so is the last one
    have hne : trimMatches c s ≠ [] := by simp [hlast]
    obtain ⟨rest, hrest⟩ := List.rdropWhile_prefix (fun x => decide (x = c))
      (s.dropWhile fun x => x = c)
    have hfront : (trimMatches c s).dropWhile (fun x => x = c) = trimMatches c s := by
      cases ht : trimMatches c s with
      | nil => exact absurd ht hne
      | cons y ys =>
        have hhead : (s.dropWhile fun x => x = c).head? = some y := by
          rw [← hrest]
          show (trimMatches c s ++ rest).head? = some y
          rw [ht]
          rfl
        have hy : y ≠ c := by
          have := List.head?_dropWhile_not (fun x => decide (x = c)) s
          rw [hhead] at this
          simpa using this
        exact List.dropWhile_cons_of_neg (by simpa using hy)
    rw [trimMatches, hfront]
    exact List.rdropWhile_idempotent _ _

end Text
