import Lox.Proofs.Run.BigStepSound
import Lox.Proofs.Run.Frames

/-!
What running a program can do to the frames that are there. Frames stay where they are, and what
they bind stays bound. A frame gains a name only as the frame that a declaration runs in: whatever
an expression calls, and whatever a block holds, declares in frames of its own.
-/

namespace Lox

/-- The names that a statement may declare in the frame it runs in. -/
def Stmt.declares : Stmt → List String
  | .var x _ | .function x _ _ => [x.lexeme]
  | .branch _ yes none => yes.declares
  | .branch _ yes (some no) => yes.declares ++ no.declares
  | .loop _ body => body.declares
  | .expression _ | .print _ _ | .block _ | .ret _ _ => []

/-- Frames stay, and keep the frames around them and the names they bind. -/
structure Heap.Extends (h h' : Heap) : Prop where
  size : h.frames.size ≤ h'.frames.size
  outer : ∀ i < h.frames.size, h'.outer? i = h.outer? i
  kept : ∀ i x, h.Binds i x → h'.Binds i x

/-- Of the frames that are there already only `s` may gain names, and only names among `xs`. -/
structure Heap.Grows (s : FrameId) (xs : List String) (h h' : Heap) : Prop
    extends Heap.Extends h h' where
  gained : ∀ i < h.frames.size, ∀ x, h'.Binds i x → h.Binds i x ∨ i = s ∧ x ∈ xs

namespace Heap

variable {h h₁ h₂ : Heap} {s i : FrameId} {xs ys : List String} {x : String} {v w : Value}
  {vars : Bindings}

theorem Extends.refl : Extends h h := ⟨Nat.le_refl _, fun _ _ => rfl, fun _ _ hb => hb⟩

theorem Extends.trans (he : Extends h h₁) (he' : Extends h₁ h₂) : Extends h h₂ where
  size := Nat.le_trans he.size he'.size
  outer i hi := (he'.outer i (Nat.lt_of_lt_of_le hi he.size)).trans (he.outer i hi)
  kept i x hb := he'.kept i x (he.kept i x hb)

theorem Extends.push : Extends h (h.push i vars).2 where
  size := by simp
  outer _ hj := outer?_push_of_lt hj
  kept j x hb := by rwa [Binds, own?_push_of_lt hb.lt_size]

namespace Grows

theorem refl : Grows s xs h h := ⟨.refl, fun _ _ _ hb => .inl hb⟩

theorem trans (hg : Grows s xs h h₁) (hg' : Grows s xs h₁ h₂) : Grows s xs h h₂ where
  toExtends := hg.toExtends.trans hg'.toExtends
  gained i hi x hb := by
    rcases hg'.gained i (Nat.lt_of_lt_of_le hi hg.size) x hb with hb | hnew
    · exact hg.gained i hi x hb
    · exact .inr hnew

theorem mono (hg : Grows s xs h h₁) (hsub : xs ⊆ ys) : Grows s ys h h₁ :=
  { hg with
    gained := fun i hi x hb => (hg.gained i hi x hb).imp_right fun ⟨hs, hx⟩ => ⟨hs, hsub hx⟩ }

/-- What gains no names can go on where names may be gained. -/
theorem before (hg : Grows s [] h h₁) (hg' : Grows s xs h₁ h₂) : Grows s xs h h₂ :=
  (hg.mono (List.nil_subset xs)).trans hg'

theorem define : Grows s [x] h (h.define x v s) where
  size := Nat.le_of_eq size_define.symm
  outer _ _ := outer?_define
  kept i y hb := by
    have hi := hb.lt_size
    by_cases hs : s < h.frames.size
    · rw [Binds, own?_define hs]
      split
      · rfl
      · exact hb
    · have hne : s ≠ i := fun his => hs (by rwa [his])
      rwa [Binds, own?_eq, frames_define_ne hne, ← own?_eq]
  gained i hi y hb := by
    by_cases his : s = i
    · subst his
      rw [Binds, own?_define hi] at hb
      split at hb
      · next hy => exact .inr ⟨rfl, List.mem_singleton.mpr hy.2⟩
      · exact .inl hb
    · rw [Binds, own?_eq, frames_define_ne his, ← own?_eq] at hb
      exact .inl hb

/-- A name that is bound already is not gained when it is assigned to. -/
theorem assign (hw : h.own? x i = some w) : Grows s [] h (h.define x v i) :=
  { define (s := i) with
    gained := fun j hj y hb => by
      rcases define.gained j hj y hb with hb | ⟨rfl, hy⟩
      · exact .inl hb
      · rw [List.mem_singleton.mp hy]
        exact .inl (Option.isSome_iff_exists.mpr ⟨w, hw⟩) }

/-- What is declared in a new frame is no matter to the frames that are there already. -/
theorem inside (hg : Grows h.frames.size xs (h.push i vars).2 h₁) : Grows s [] h h₁ where
  toExtends := Extends.push.trans hg.toExtends
  gained j hj x hb := by
    rcases hg.gained j (by simpa using Nat.lt_succ_of_lt hj) x hb with hb | ⟨rfl, -⟩
    · exact .inl (by rwa [Binds, own?_push_of_lt hj] at hb)
    · exact absurd hj (Nat.lt_irrefl _)

end Grows
end Heap

/-! ### By the rules -/

namespace BigStep
open Heap

variable {κ : Nat → Option Float}

theorem Bound.own {h : Heap} {x : String} {is : List FrameId} {i : FrameId} {v : Value}
    (hb : Bound h x is i v) : h.own? x i = some v := by
  induction hb with
  | here hv => exact hv
  | outer _ _ ih => exact ih

theorem Bound.mem {h : Heap} {x : String} {is : List FrameId} {i : FrameId} {v : Value}
    (hb : Bound h x is i v) : i ∈ is := by
  induction hb with
  | here _ => exact List.mem_cons_self
  | outer _ _ ih => exact List.mem_cons_of_mem _ ih

mutual

/-- No frame gains a name while an expression is evaluated. -/
theorem Evaluates.grows {s d e σ r σ'} : Evaluates κ s d e σ r σ' → Grows s [] σ.heap σ'.heap
  | .literal _ | .name _ _ | .unbound _ _ => .refl
  | .assign _ he hx => he.grows.trans (.assign hx.own)
  | .assignUnbound _ he _ | .assignFault _ he | .unary _ he _ | .unaryFault _ he | .grouping he =>
    he.grows
  | .binary _ hl hr _ | .binaryRight _ hl hr | .undecided _ hl _ hr => hl.grows.trans hr.grows
  | .binaryLeft _ hl | .decided _ hl _ | .logicalFault _ hl => hl.grows
  | .call _ hf hargs hcall => (hf.grows.trans hargs.grows).trans hcall.grows
  | .callee _ hf => hf.grows
  | .arguments _ hf hargs => hf.grows.trans hargs.grows

theorem EvaluatesAll.grows {s d es σ r σ'} :
    EvaluatesAll κ s d es σ r σ' → Grows s [] σ.heap σ'.heap
  | .nil => .refl
  | .cons he hes | .tail he hes => he.grows.trans hes.grows
  | .head he => he.grows

theorem Calls.grows {s d paren v vs σ r σ'} :
    Calls κ d paren v vs σ r σ' → Grows s [] σ.heap σ'.heap
  | .notCallable _ | .wrongArity _ | .stackOverflow _ _ | .clock _ _ => .refl
  | .returned _ _ hbody | .finished _ _ hbody | .fault _ _ hbody => .inside hbody.grows

theorem Executes.grows {s d st σ r σ'} :
    Executes κ s d st σ r σ' → Grows s st.declares σ.heap σ'.heap
  | .expression he | .expressionFault he | .print _ he _ | .refused _ he _ | .printFault _ he
  | .retValue _ he | .retFault _ he => he.grows
  | .var _ | .function _ _ _ => .define
  | .init _ he => he.grows.before .define
  | .initFault _ he => he.grows.before .refl
  | .block hbody => .inside hbody.grows
  | @Executes.yes _ _ _ _ _ no _ _ _ _ _ hc _ hyes => by
    refine hc.grows.before (hyes.grows.mono ?_)
    cases no with
    | none => exact List.Subset.refl _
    | some no => exact List.subset_append_left _ _
  | .no hc _ hno => hc.grows.before (hno.grows.mono (List.subset_append_right _ _))
  | .neither hc _ => hc.grows.before .refl
  | .branchFault hc => hc.grows.before .refl
  | .loop hloop => hloop.grows
  | .ret _ => .refl

theorem Repeats.grows {s d c body σ r σ'} :
    Repeats κ s d c body σ r σ' → Grows s body.declares σ.heap σ'.heap
  | .stop hc _ | .testFault hc => hc.grows.before .refl
  | .again hc _ hbody hloop => hc.grows.before (hbody.grows.trans hloop.grows)
  | .returned hc _ hbody | .bodyFault hc _ hbody => hc.grows.before hbody.grows

theorem ExecutesAll.grows {s d ss σ r σ'} :
    ExecutesAll κ s d ss σ r σ' → Grows s (ss.flatMap Stmt.declares) σ.heap σ'.heap
  | .nil => .refl
  | .cons hst hss =>
    (hst.grows.mono (List.subset_append_left _ _)).trans
      (hss.grows.mono (List.subset_append_right _ _))
  | .returned hst | .fault hst => hst.grows.mono (List.subset_append_left _ _)

end

end BigStep
end Lox
