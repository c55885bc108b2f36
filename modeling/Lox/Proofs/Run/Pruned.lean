import Lox.Proofs.Run.Coupling

/-!
Statements behind a `return`. They are never run, so that a program goes on in the same way when
they are taken out, in every list of statements that it has.
-/

namespace Lox

/-! ### Taking statements out -/

mutual

/-- A statement without those in it that stand behind a `return`. -/
def Stmt.pruned : Stmt → Stmt
  | .function x ps body => .function x ps (Stmt.allPruned body)
  | .block body => .block (Stmt.allPruned body)
  | .branch c yes no => .branch c yes.pruned (Stmt.optionPruned no)
  | .loop c body => .loop c body.pruned
  | s => s

/-- The same for a statement that may be missing. -/
def Stmt.optionPruned : Option Stmt → Option Stmt
  | none => none
  | some s => some s.pruned

/-- Statements without those that stand behind a `return`. -/
def Stmt.allPruned : List Stmt → List Stmt
  | [] => []
  | .ret t e :: _ => [.ret t e]
  | s :: ss => s.pruned :: Stmt.allPruned ss

end

/-- A value with the body of its function pruned, if it is one. -/
def Value.pruned : Value → Value
  | .callable (.function f) => .callable (.function { f with body := Stmt.allPruned f.body })
  | v => v

/-- Frames with the bodies of functions pruned. -/
def Heap.pruned (h : Heap) : Heap :=
  ⟨h.frames.map fun f => { f with vars := f.vars.map fun p => (p.1, p.2.pruned) }⟩

/-- A machine with the bodies of its functions pruned; nothing else changes. -/
def Machine.pruned (m : Machine) : Machine := { m with heap := m.heap.pruned }

/-! ### What pruning leaves -/

namespace Stmt

/-- A statement is no `return`, and what comes after it may be run. -/
def Passes (s : Stmt) : Prop := ∀ t e, s ≠ .ret t e

theorem passes_or_ret (s : Stmt) : s.Passes ∨ ∃ t e, s = .ret t e := by
  by_cases hs : ∃ t e, s = .ret t e
  · exact .inr hs
  · exact .inl fun t e h => hs ⟨t, e, h⟩

theorem allPruned_cons {s : Stmt} (hs : s.Passes) (ss : List Stmt) :
    allPruned (s :: ss) = s.pruned :: allPruned ss := by
  rw [allPruned]
  exact hs

/-- Whatever the first statement is, it stays the first one. -/
theorem allPruned_cons_eq (s : Stmt) (ss : List Stmt) :
    ∃ rest, allPruned (s :: ss) = s.pruned :: rest := by
  rcases s.passes_or_ret with hs | ⟨t, e, rfl⟩
  · exact ⟨_, allPruned_cons hs ss⟩
  · exact ⟨[], by simp [allPruned, pruned]⟩

theorem passes_pruned {s : Stmt} : s.pruned.Passes ↔ s.Passes := by
  cases s <;> simp [pruned, Passes]

mutual

theorem pruned_pruned : ∀ s : Stmt, s.pruned.pruned = s.pruned
  | .function x ps body => by rw [pruned, pruned, allPruned_allPruned body]
  | .block body => by rw [pruned, pruned, allPruned_allPruned body]
  | .branch c yes no => by
    rw [pruned, pruned, pruned_pruned yes, optionPruned_optionPruned no]
  | .loop c body => by rw [pruned, pruned, pruned_pruned body]
  | .expression _ | .print _ _ | .var _ _ | .ret _ _ => rfl

theorem optionPruned_optionPruned :
    ∀ s : Option Stmt, optionPruned (optionPruned s) = optionPruned s
  | none => rfl
  | some s => by rw [optionPruned, optionPruned, pruned_pruned s]

/-- Nothing is left to be taken out. -/
theorem allPruned_allPruned : ∀ ss : List Stmt, allPruned (allPruned ss) = allPruned ss
  | [] => rfl
  | s :: ss => by
    rcases s.passes_or_ret with hs | ⟨t, e, rfl⟩
    · rw [allPruned_cons hs, allPruned_cons (passes_pruned.mpr hs), pruned_pruned s,
        allPruned_allPruned ss]
    · rfl

end

end Stmt

/-! ### Programs that are the same but for pruning -/

namespace Run.Pruning
open Stmt

/-- Names are the same, and so are bodies when they are pruned. -/
def correspondence : Correspondence :=
  .spelled Eq (fun ss ss' => allPruned ss = allPruned ss') (congrArg _)

section
variable {s s' : Stmt} {ss ss' : List Stmt} {v v' : Value}

theorem expr_matches (e : Expr) : e.Matches correspondence Eq Eq e := by
  cases e with
  | literal v => exact .literal v
  | «variable» x => exact .variable rfl
  | assign x e => exact .assign rfl rfl
  | unary op e => exact .unary rfl rfl
  | binary l op r => exact .binary rfl rfl rfl
  | logical l op r => exact .logical rfl rfl rfl
  | grouping e => exact .grouping rfl
  | call f t args => exact .call rfl rfl (List.forall₂_eq_eq_eq ▸ rfl)

theorem option_rel (e : Option Expr) : Option.Rel Eq e e := by
  cases e with
  | none => exact .none
  | some e => exact .some rfl

theorem optionPruned_rel {no no' : Option Stmt} (h : optionPruned no = optionPruned no') :
    Option.Rel (fun s s' => s.pruned = s'.pruned) no no' := by
  cases no <;> cases no' <;> simp only [optionPruned, reduceCtorEq, Option.some.injEq] at h
  · exact .none
  · exact .some h

theorem stmt_matches (h : s.pruned = s'.pruned) :
    s.Matches correspondence Eq Eq (fun s s' => s.pruned = s'.pruned) s' := by
  cases s with
  | expression e =>
    cases s' <;> simp only [pruned, reduceCtorEq, expression.injEq] at h
    exact .expression h
  | print t e =>
    cases s' <;> simp only [pruned, reduceCtorEq, print.injEq] at h
    exact .print h.1 h.2
  | var x init =>
    cases s' <;> simp only [pruned, reduceCtorEq, var.injEq] at h
    exact .var h.1 (h.2 ▸ option_rel init)
  | function x ps body =>
    cases s' <;> simp only [pruned, reduceCtorEq, function.injEq] at h
    exact .function h.1 (List.forall₂_eq_eq_eq ▸ h.2.1) h.2.2
  | block body =>
    cases s' <;> simp only [pruned, reduceCtorEq, block.injEq] at h
    exact .block h
  | branch c yes no =>
    cases s' <;> simp only [pruned, reduceCtorEq, branch.injEq] at h
    exact .branch h.1 h.2.1 (optionPruned_rel h.2.2)
  | loop c body =>
    cases s' <;> simp only [pruned, reduceCtorEq, loop.injEq] at h
    exact .loop h.1 h.2
  | ret t value =>
    cases s' <;> simp only [pruned, reduceCtorEq, ret.injEq] at h
    exact .ret (h.2 ▸ option_rel value)

theorem body_matches (h : allPruned ss = allPruned ss') :
    Stmt.AllMatch correspondence (fun s s' => s.pruned = s'.pruned) ss ss' := by
  match ss, ss' with
  | [], [] => exact .nil
  | [], s' :: ss' =>
    obtain ⟨rest', h'⟩ := allPruned_cons_eq s' ss'
    cases h.trans h'
  | s :: ss, [] =>
    obtain ⟨rest, h'⟩ := allPruned_cons_eq s ss
    cases h'.symm.trans h
  | s :: ss, s' :: ss' =>
    obtain ⟨rest, hrest⟩ := allPruned_cons_eq s ss
    obtain ⟨rest', hrest'⟩ := allPruned_cons_eq s' ss'
    have hs : s.pruned = s'.pruned := (List.cons.inj (hrest ▸ hrest' ▸ h)).1
    have hpasses : s.Passes ↔ s'.Passes := by rw [← passes_pruned, hs, passes_pruned]
    rcases s.passes_or_ret with hp | ⟨t, e, rfl⟩
    · rw [allPruned_cons hp, allPruned_cons (hpasses.mp hp)] at h
      exact .cons hs (List.cons.inj h).2
    · rcases s'.passes_or_ret with hp' | ⟨t', e', rfl⟩
      · exact absurd rfl (hpasses.mpr hp' t e)
      · exact .dead hs

/-- Programs that are the same when they are pruned. -/
def coupling : Coupling where
  toCorrespondence := correspondence
  Mark := Eq
  Exprs := Eq
  Stmts s s' := s.pruned = s'.pruned
  Outs := Eq
  Among _ _ := True
  leads _ _ _ := trivial
  kind := congrArg _
  expr h := h ▸ expr_matches _
  stmt := stmt_matches
  body := body_matches
  print _ _ _ hv hout := by
    rw [hv.text, hout]
    exact ⟨rfl, rfl⟩

/-! ### Machines that are the same but for pruning -/

theorem coupled_refl (v : Value) : Value.Coupled correspondence v v := by
  cases v with
  | nil => exact .nil
  | bool b => exact .bool b
  | num x => exact .num x
  | str s => exact .str s
  | callable c =>
    cases c with
    | clock => exact .clock
    | function f =>
      have hparams : List.Forall₂ Eq f.params f.params := List.forall₂_eq_eq_eq ▸ rfl
      exact .function rfl rfl hparams rfl rfl

theorem heap_refl (h : Heap) : Heap.Coupled correspondence h h where
  size := rfl
  frame i := by
    cases h.frames[i]? with
    | none => exact .none
    | some f =>
      exact .some ⟨rfl, List.forall₂_same.mpr fun p _ => ⟨rfl, coupled_refl p.2⟩⟩

theorem machines_refl (m : Machine) : coupling.Machines m m :=
  ⟨heap_refl m.heap, rfl, rfl, rfl, rfl, rfl, rfl⟩

theorem pruned_eq_of_coupled (h : Value.Coupled correspondence v v') :
    v.pruned = v'.pruned := by
  cases h with
  | @function f f' hid hname hforall hbody hframe =>
    have hname : f.name = f'.name := hname
    have hparams : f.params = f'.params := List.forall₂_eq_eq_eq ▸ hforall
    have hbody : allPruned f.body = allPruned f'.body := hbody
    rw [Value.pruned, Value.pruned, hid, hname, hparams, hbody, hframe]
  | _ => rfl

theorem bindings_pruned_eq {b b' : Bindings} (h : Bindings.Coupled correspondence b b') :
    b.map (fun p => (p.1, p.2.pruned)) = b'.map fun p => (p.1, p.2.pruned) := by
  induction h with
  | nil => rfl
  | cons hp _ ih => rw [List.map_cons, List.map_cons, ih, hp.1, pruned_eq_of_coupled hp.2]

theorem heap_pruned_eq {h h' : Heap} (hh : Heap.Coupled correspondence h h') :
    h.pruned = h'.pruned := by
  refine congrArg Heap.mk (Array.ext_getElem? fun i => ?_)
  have hi := hh.frame i
  rw [Array.getElem?_map, Array.getElem?_map]
  generalize h.frames[i]? = f, h'.frames[i]? = f' at hi ⊢
  cases hi with
  | none => rfl
  | some hf => rw [Option.map_some, Option.map_some, hf.outer, bindings_pruned_eq hf.vars]

theorem machine_pruned_eq {m m' : Machine} (hm : coupling.Machines m m') :
    m.pruned = m'.pruned := by
  have hout : m.out = m'.out := hm.out
  rw [Machine.pruned, Machine.pruned, heap_pruned_eq hm.heap, hm.scope, hm.depth, hm.made, hm.clock,
    hm.ticks, hout]

end

end Run.Pruning

/-! ### Programs -/

open Run.Pruning in
/-- Statements behind a `return` are dead. Without them, in all lists of statements of a program, it
does the same within any number of steps: it writes the same, ends in the same way, with the same
fault if it has one, and leaves the same machine but for the bodies of its functions, which differ
by such statements at most. -/
theorem Machine.run_pruned (m : Machine) (n : Nat) (program : List Stmt) :
    (m.run n (Stmt.allPruned program)).1 = (m.run n program).1 ∧
      (m.run n (Stmt.allPruned program)).2.out = (m.run n program).2.out ∧
      (m.run n (Stmt.allPruned program)).2.pruned = (m.run n program).2.pruned := by
  -- pruned once more, both programs are the same
  have hbody : coupling.Body (Stmt.allPruned program) program := Stmt.allPruned_allPruned program
  obtain ⟨hending, hm⟩ := coupling.run hbody (machines_refl m) (k := 0) trivial n
  refine ⟨?_, hm.out, machine_pruned_eq hm⟩
  generalize (m.run n _).1 = e, (m.run n program).1 = e' at hending ⊢
  cases hending with
  | finished => rfl
  | faulted hf =>
    cases hf with
    | undefined hx => exact congrArg _ (congrArg _ hx)
    | other _ ht => exact congrArg _ (congrArg _ ht)
  | exhausted => rfl

example (t : Token) (e : Expr) :
    Stmt.allPruned [.function t [] [.ret t none, .print t e], .block [.ret t e, .ret t none],
      .ret t none, .expression e] =
      [.function t [] [.ret t none], .block [.ret t e], .ret t none] := by rfl

end Lox
