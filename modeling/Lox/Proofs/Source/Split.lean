import Lox.Proofs.Source.Lexeme

/-!
Cutting sources by longest match. A source can be split in one way only so that every fragment is
the longest that fits at its place, and this is how it is cut.
-/

namespace Lox

/-- Of the fragments that may stand at the front of `cs`, none is longer than `f`, which leaves
`rest`. -/
structure Longest (cs : List Char) (f : Fragment) (rest : List Char) : Prop where
  split : cs = f.text ++ rest
  lexeme : Lexeme f.shape f.text rest
  longest : ∀ (g : Fragment) rest', cs = g.text ++ rest' → Lexeme g.shape g.text rest' →
    g.text.length ≤ f.text.length

/-- Consecutive fragments, each of which is the longest at its place. -/
inductive Splits : List Char → List Fragment → Prop where
  | nil : Splits [] []
  | cons {cs f rest fs} : Longest cs f rest → Splits rest fs → Splits cs (f :: fs)

theorem Lexeme.ne_nil {s : Shape} {text rest : List Char} (h : Lexeme s text rest) : text ≠ [] := by
  cases h with
  | whole hne _ => exact hne
  | fraction hne _ _ => simp
  | operator hk =>
    rcases Fragment.spelling_of_isMark hk with ⟨c, hc, -⟩ | ⟨c, hc, -⟩ <;> simp [hc]
  | _ => exact List.cons_ne_nil _ _

namespace Fragment
open Character

section
variable {c : Char} {r rest : List Char} {f : Fragment}

/-! ### One fragment -/

theorem stringTail_le (r : List Char) : (stringTail r).2 ≤ r.length := by
  have hle := run_le (· != '"') r
  rw [stringTail]
  split
  · next hlt => exact hlt
  · exact hle

theorem slashTail_le (r : List Char) : (slashTail r).2 ≤ r.length := by
  unfold slashTail
  split
  · exact Nat.succ_le_succ (run_le _ _)
  · next r =>
    split
    · next n hclose =>
      have hle := (pastClose_append [] r 1 n hclose).2
      simp only [List.length_cons]
      omega
    · exact Nat.le_refl _
  · exact Nat.zero_le _

/-- A fragment takes no more than there is. -/
theorem shapeOf_le (c : Char) (r : List Char) : (shapeOf c r).2 ≤ r.length := by
  rw [shapeOf]
  split
  · exact Nat.zero_le _
  split
  · exact numberTail_le r
  split
  · exact run_le _ r
  split
  · exact stringTail_le r
  split
  · exact slashTail_le r
  · exact (operatorTail_append c r []).2

/-- The longest fragment is the one that is cut off first. -/
theorem longest_iff : Longest (c :: r) f rest ↔
    f = ⟨(shapeOf c r).1, c :: r.take (shapeOf c r).2⟩ ∧ rest = r.drop (shapeOf c r).2 := by
  have hfound := shapeOf_found c r
  have hsplit : c :: r = (c :: r.take (shapeOf c r).2) ++ r.drop (shapeOf c r).2 := by simp
  have hlength : (c :: r.take (shapeOf c r).2).length = (shapeOf c r).2 + 1 := by
    rw [List.length_cons, List.length_take_of_le (shapeOf_le c r)]
  constructor
  · intro h
    have hout := shapeOf_outlasts h.lexeme h.split.symm
    -- neither is longer, and fragments of one length are the same
    have hsame : f.text.length = (c :: r.take (shapeOf c r).2).length :=
      Nat.le_antisymm (hlength ▸ hout.length) (h.longest ⟨_, _⟩ _ hsplit hfound)
    obtain ⟨htext, hrest⟩ := List.append_inj (h.split.symm.trans hsplit) hsame
    obtain ⟨shape, text⟩ := f
    rw [Fragment.mk.injEq]
    exact ⟨⟨hout.shape (hsame.trans hlength), htext⟩, hrest⟩
  · rintro ⟨rfl, rfl⟩
    refine ⟨hsplit, hfound, fun g rest' hg hlexeme => ?_⟩
    exact hlength.symm ▸ (shapeOf_outlasts hlexeme hg.symm).length

end

end Fragment

/-! ### All fragments -/

/-- What a source is cut into is its only split by longest match. -/
theorem splits_iff {cs : List Char} {fs : List Fragment} :
    Splits cs fs ↔ fs = Fragment.all cs := by
  induction hn : cs.length using Nat.strongRecOn generalizing cs fs with
  | ind n ih =>
    cases cs with
    | nil =>
      constructor
      · intro h
        cases h with
        | nil => rfl
        | cons h _ => exact absurd (List.append_eq_nil_iff.mp h.split.symm).1 h.lexeme.ne_nil
      · rintro rfl
        exact .nil
    | cons c r =>
      have hless : (r.drop (Fragment.shapeOf c r).2).length < n := by
        rw [← hn, List.length_drop, List.length_cons]
        omega
      rw [Fragment.all_cons]
      constructor
      · intro h
        cases h with
        | cons hfirst hothers =>
          obtain ⟨rfl, rfl⟩ := Fragment.longest_iff.mp hfirst
          rw [(ih _ hless rfl).mp hothers]
      · rintro rfl
        exact .cons (Fragment.longest_iff.mpr ⟨rfl, rfl⟩) ((ih _ hless rfl).mpr rfl)

/-- In a split, every fragment looks like one. -/
theorem Splits.exists_lexeme {cs : List Char} {fs : List Fragment} (h : Splits cs fs) :
    ∀ f ∈ fs, ∃ rest, Lexeme f.shape f.text rest := by
  induction h with
  | nil => exact nofun
  | cons hfirst _ ih => exact List.forall_mem_cons.mpr ⟨⟨_, hfirst.lexeme⟩, ih⟩

end Lox
