import Lox.Proofs.Run.Coupling
import Lox.Proofs.Run.Like

/-!
Programs that are alike run alike. Likeness is one of the ways in which runs correspond: tokens of
one kind and one spelling stand for each other, and everything else is the same on both sides.
-/

namespace Lox

/-- Statements that end alike. -/
inductive Flow.Like (R : Token → Token → Prop) : Flow → Flow → Prop where
  | next : Like R .next .next
  | returned {v v' : Value} : Value.Like R v v' → Like R (.returned v) (.returned v')

namespace Run

/-! ### Likeness as a correspondence -/

section
variable {R : Token → Token → Prop} (hR : Faithful R) (w : ByteArray)

/-- Tokens are related, and output may start with what has been written before. -/
def likeness : Coupling where
  toCorrespondence := .spelled R (List.Forall₂ (Stmt.Like R)) hR.lexeme
  Mark := R
  Exprs := Expr.Like R
  Stmts := Stmt.Like R
  Outs := Output.Behind w
  Among _ _ := True
  leads _ _ _ := trivial
  kind := hR.kind
  expr h := by
    cases h with
    | literal v => exact .literal v
    | «variable» hx => exact .variable hx
    | assign hx he => exact .assign hx he
    | unary hop he => exact .unary hop he
    | binary hl hop hr => exact .binary hl hop hr
    | logical hl hop hr => exact .logical hl hop hr
    | grouping he => exact .grouping he
    | call hf ht hargs => exact .call hf ht hargs
  stmt h := by
    cases h with
    | expression he => exact .expression he
    | print ht he => exact .print ht he
    | var hx he => exact .var hx he
    | function hx hps hbody => exact .function hx hps hbody
    | block hbody => exact .block hbody
    | lone hc hyes => exact .branch hc hyes .none
    | both hc hyes hno => exact .branch hc hyes (.some hno)
    | loop hc hbody => exact .loop hc hbody
    | ret _ he => exact .ret he
  body h := by
    cases h with
    | nil => exact .nil
    | cons hs hss => exact .cons hs hss
  print _ _ _ hv hout := by
    rw [hv.text]
    exact hout.write _

variable {hR w}

theorem values_iff {v v' : Value} : (likeness hR w).Values v v' ↔ Value.Like R v v' := by
  constructor
  · intro h
    cases h with
    | nil => exact .nil
    | bool b => exact .bool b
    | num x => exact .num x
    | str s => exact .str s
    | clock => exact .clock
    | function hid hname hparams hbody hframe => exact .function hid hname hparams hbody hframe
  · intro h
    cases h with
    | nil => exact .nil
    | bool b => exact .bool b
    | num x => exact .num x
    | str s => exact .str s
    | clock => exact .clock
    | function hid hname hparams hbody hframe => exact .function hid hname hparams hbody hframe

theorem bindings_iff {b b' : Bindings} :
    Bindings.Coupled (likeness hR w).toCorrespondence b b' ↔ Bindings.Like R b b' :=
  ⟨fun h => h.imp fun _ _ hp => ⟨hp.1, values_iff.mp hp.2⟩,
    fun h => h.imp fun _ _ hp => ⟨hp.1, values_iff.mpr hp.2⟩⟩

theorem frames_iff {f f' : Option Frame} :
    Option.Rel (Frame.Coupled (likeness hR w).toCorrespondence) f f' ↔
      Option.Rel (Frame.Like R) f f' := by
  constructor
  · rintro (⟨⟨houter, hvars⟩⟩ | _)
    · exact .some ⟨houter, bindings_iff.mp hvars⟩
    · exact .none
  · rintro (⟨⟨houter, hvars⟩⟩ | _)
    · exact .some ⟨houter, bindings_iff.mpr hvars⟩
    · exact .none

theorem heaps_iff {h h' : Heap} :
    Heap.Coupled (likeness hR w).toCorrespondence h h' ↔ Heap.Like R h h' :=
  ⟨fun hh => ⟨hh.size, fun i => frames_iff.mp (hh.frame i)⟩,
    fun hh => ⟨hh.size, fun i => frames_iff.mpr (hh.frame i)⟩⟩

theorem machines_iff {m m' : Machine} :
    (likeness hR w).Machines m m' ↔ Machine.Like R w m m' :=
  ⟨fun h => ⟨heaps_iff.mp h.heap, h.scope, h.depth, h.made, h.clock, h.ticks, h.out⟩,
    fun h => ⟨heaps_iff.mpr h.heap, h.scope, h.depth, h.made, h.clock, h.ticks, h.out⟩⟩

/-- Runs that correspond end alike. -/
theorem Same.of_ends {α β : Type} {L M : α → β → Prop} (hL : ∀ a b, L a b → M a b)
    {r : EStateM.Result Halt Machine α} {r' : EStateM.Result Halt Machine β}
    (h : (likeness hR w).Ends L r r') : Same R w M r r' := by
  cases h with
  | ok hab hm => exact .ok (hL _ _ hab) (machines_iff.mp hm)
  | @fault f f' _ _ hf hm =>
    have hlike : Fault.Like R f f' := by
      cases hf with
      | undefined hx => exact ⟨rfl, hx⟩
      | other _ ht => exact ⟨rfl, ht⟩
    exact .fault hlike (machines_iff.mp hm)
  | exhausted hm => exact .exhausted (machines_iff.mp hm)

end

/-! ### Runs -/

namespace Simulates

variable {R : Token → Token → Prop} {w : ByteArray}

theorem bind {α β γ δ : Type} {L : α → β → Prop} {M : γ → δ → Prop} {x : Run α} {y : Run β}
    {f : α → Run γ} {g : β → Run δ} (hx : Simulates R w L x y)
    (hf : ∀ a b, L a b → Simulates R w M (f a) (g b)) : Simulates R w M (x >>= f) (y >>= g) := by
  intro m m' hm
  have hxy := hx m m' hm
  generalize hr : x m = r, hr' : y m' = r' at hxy
  cases hxy with
  | ok h hm₁ =>
    rw [Step.bind_of_ok hr, Step.bind_of_ok hr']
    exact hf _ _ h _ _ hm₁
  | fault hfault hm₁ =>
    rw [Step.bind_of_error hr, Step.bind_of_error hr']
    exact .fault hfault hm₁
  | exhausted hm₁ =>
    rw [Step.bind_of_error hr, Step.bind_of_error hr']
    exact .exhausted hm₁

theorem sequence {exec : Stmt → Run Flow}
    (hexec : ∀ s s', Stmt.Like R s s' → Simulates R w (Flow.Like R) (exec s) (exec s'))
    {ss ss' : List Stmt} (h : List.Forall₂ (Stmt.Like R) ss ss') :
    Simulates R w (Flow.Like R) (sequence exec ss) (sequence exec ss') := by
  induction h with
  | nil => exact fun _ _ hm => .ok .next hm
  | cons hs _ ih =>
    refine (hexec _ _ hs).bind fun flow flow' hflow => ?_
    cases hflow with
    | next => exact ih
    | returned hv => exact fun _ _ hm => .ok (.returned hv) hm

/-- Within the same number of steps, programs that are alike come to the same. -/
theorem eval_exec (hR : Faithful R) (n : Nat) :
    (∀ e e', Expr.Like R e e' → Simulates R w (Value.Like R) (eval n e) (eval n e')) ∧
      ∀ s s', Stmt.Like R s s' → Simulates R w (Flow.Like R) (exec n s) (exec n s') := by
  obtain ⟨heval, hexec⟩ := (likeness hR w).eval_exec n
  constructor
  · intro e e' h m m' hm
    exact .of_ends (fun _ _ => values_iff.mp) (heval e e' m m' 0 trivial h (machines_iff.mpr hm))
  · intro s s' h m m' hm
    refine .of_ends (fun flow flow' hflow => ?_) (hexec s s' m m' 0 trivial h (machines_iff.mpr hm))
    cases hflow with
    | next => exact .next
    | returned hv => exact .returned (values_iff.mp hv)

end Simulates
end Run
end Lox
