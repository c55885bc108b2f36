import Lox.Proofs.Run.Point

/-!
A logic of runs. What is said of runs is said of the steps of the machine first, and a step after
another one may use what is known of the first. From the rules for steps it follows for all
expressions and statements, as far as they are run at points that are considered.
-/

namespace Lox

/-- A value that is not a function made by a declaration. -/
def Value.Plain (v : Value) : Prop := ∀ f, v ≠ .callable (.function f)

namespace Value.Plain

theorem nil : Plain .nil := fun _ h => nomatch h

theorem bool (b : Bool) : Plain (.bool b) := fun _ h => nomatch h

theorem num (x : Float) : Plain (.num x) := fun _ h => nomatch h

theorem str (s : String) : Plain (.str s) := fun _ h => nomatch h

theorem toValue (v : Literal) : Plain v.toValue := by
  cases v with
  | nil => exact .nil
  | bool b => exact .bool b
  | num x => exact .num x
  | str s => exact .str s

end Value.Plain

namespace Run

/-- A machine shows how many calls are under way on it. -/
theorem guard_eq {α : Type} {x y : Run α} (m : Machine) :
    (do if maxCallDepth ≤ (← get).depth then x else y : Run α) m =
      if maxCallDepth ≤ m.depth then x m else y m := by
  have hget : (get : Run Machine) m = .ok m m := rfl
  rw [Step.bind_of_ok hget]
  split <;> rfl

/-- A property of runs, with what is known of the values that the runs work with. -/
structure Logic where
  /-- The points that are considered, and with a point all that it leads to. -/
  Among : Point → Prop
  leads {p q : Point} : Among p → Leads p q → Among q
  /-- What is known of a value in a heap. -/
  Good : Heap → Value → Prop
  plain {h : Heap} {v : Value} : v.Plain → Good h v
  mono {h h' : Heap} {v : Value} : h.Extends h' → Good h v → Good h' v
  /-- The property: of a run from a machine, whose result is one of those that are described. -/
  Holds {α : Type} : (Heap → α → Prop) → Run α → Machine → Prop
  pure {α : Type} {R : Heap → α → Prop} {a : α} {m : Machine} : R m.heap a → Holds R (pure a) m
  bind {α β : Type} {R : Heap → α → Prop} {R' : Heap → β → Prop} {x : Run α} {f : α → Run β}
    {m : Machine} : Holds R x m →
    (∀ a m₁, x m = .ok a m₁ → R m₁.heap a → Holds R' (f a) m₁) → Holds R' (x >>= f) m
  exhausted {α : Type} {R : Heap → α → Prop} {m : Machine} : Holds R (throw .exhausted) m
  raise {α : Type} {R : Heap → α → Prop} (c : FaultCause) (t : Token) {m : Machine} :
    Holds R (raise c t) m
  readName (x : Token) {m : Machine} : Holds Good (readName x) m
  assign (x : Token) {v : Value} {m : Machine} : Good m.heap v →
    Holds (fun h _ => Good h v) (assign x v) m
  define (x : String) {v : Value} {m : Machine} : Good m.heap v →
    Holds (fun _ _ => True) (define x v) m
  declare {x : Token} {ps : List Token} {body : List Stmt} {m : Machine} {k : Nat} :
    Among ⟨.exec (.function x ps body), m, k⟩ → Holds (fun _ _ => True) (declare x ps body) m
  printLine {t : Token} {e : Expr} {n : Nat} {v : Value} {m₀ m : Machine} {k : Nat} :
    Among ⟨.exec (.print t e), m₀, k⟩ → eval n e m₀ = .ok v m →
    Holds (fun _ _ => True) (printLine t v.text) m
  tick {m : Machine} : Holds Good tick m
  /-- What is run in a new frame inside the current one. -/
  block {α : Type} {R : Heap → α → Prop} {x : Run α} {m : Machine} :
    Holds R x (m.within m.scope []) → Holds R (do inFrame (← get).scope [] x) m
  /-- What is run in the frame of a call. -/
  enter {α : Type} {R : Heap → α → Prop} {x : Run α} {f : Closure} {vs : List Value} {m : Machine} :
    Good m.heap (.callable (.function f)) → (∀ v ∈ vs, Good m.heap v) →
    Holds R x (m.within f.frame (.ofArguments f.params vs)) →
    Holds R (inFrame f.frame (.ofArguments f.params vs) x) m
  /-- What depends on the number of calls that are under way. -/
  guard {α : Type} {R : Heap → α → Prop} {x y : Run α} {m : Machine} :
    (maxCallDepth ≤ m.depth → Holds R x m) → (m.depth < maxCallDepth → Holds R y m) →
    Holds R (do if maxCallDepth ≤ (← get).depth then x else y) m
  deeper {α : Type} {R : Heap → α → Prop} {x : Run α} {m : Machine} :
    Holds R x m.calling → Holds R (deeper x) m

namespace Logic

variable (L : Logic) {m : Machine} {k : Nat}

/-- What is known of the values of a list. -/
def AllGood (h : Heap) (vs : List Value) : Prop := ∀ v ∈ vs, L.Good h v

/-- What is known of the value that is returned, if there is one. -/
def Ends (h : Heap) (flow : Flow) : Prop := ∀ v, flow = .returned v → L.Good h v

theorem next {h : Heap} : L.Ends h .next := fun _ h => nomatch h

theorem returned {h : Heap} {v : Value} (hv : L.Good h v) : L.Ends h (.returned v) := by
  rintro _ ⟨rfl⟩
  exact hv

/-! ### Operators -/

theorem unary (op : Token) (a : Value) : L.Holds L.Good (unary op a) m := by
  unfold Run.unary
  split
  · exact L.pure (L.plain (.num _))
  · exact L.raise _ _
  · exact L.pure (L.plain (.bool _))
  · exact L.raise _ _

theorem onNumbers (op : Token) {f : Float → Float → Value} (hf : ∀ x y, (f x y).Plain)
    (a b : Value) : L.Holds L.Good (onNumbers op f a b) m := by
  unfold Run.onNumbers
  split
  · exact L.pure (L.plain (hf _ _))
  · exact L.raise _ _

theorem plus (op : Token) (a b : Value) : L.Holds L.Good (plus op a b) m := by
  unfold Run.plus
  split
  · exact L.pure (L.plain (.num _))
  · exact L.pure (L.plain (.str _))
  · exact L.raise _ _

theorem binary (op : Token) (a b : Value) : L.Holds L.Good (binary op a b) m := by
  unfold Run.binary
  cases op.kind with
  | equalEqual | bangEqual => exact L.pure (L.plain (.bool _))
  | plus => exact L.plus op a b
  | minus | slash | star => exact L.onNumbers op (fun _ _ => .num _) a b
  | greater | greaterEqual | less | lessEqual => exact L.onNumbers op (fun _ _ => .bool _) a b
  | _ => exact L.raise _ _

section
variable {n : Nat} (heval : ∀ e m k, L.Among ⟨.eval e, m, k⟩ → L.Holds L.Good (eval n e) m)
  (hexec : ∀ s m k, L.Among ⟨.exec s, m, k⟩ → L.Holds L.Ends (exec n s) m)

/-! ### Lists of expressions and statements, and loops -/

include heval in
theorem mapM (es : List Expr) (h : L.Among ⟨.evalAll es, m, k⟩) :
    L.Holds L.AllGood (es.mapM (eval n)) m := by
  induction es generalizing m with
  | nil => exact L.pure fun _ h => absurd h List.not_mem_nil
  | cons e es ih =>
    rw [List.mapM_cons]
    refine L.bind (heval _ _ _ (L.leads h .first)) fun v m₁ hv hgood => ?_
    refine L.bind (ih (L.leads h (.others hv))) fun vs m₂ hvs hgoods => L.pure ?_
    exact List.forall_mem_cons.mpr ⟨L.mono (mapM_continues hvs).heap hgood, hgoods⟩

include hexec in
theorem sequence (ss : List Stmt) (h : L.Among ⟨.execAll ss, m, k⟩) :
    L.Holds L.Ends (sequence (exec n) ss) m := by
  induction ss generalizing m with
  | nil => exact L.pure L.next
  | cons s ss ih =>
    refine L.bind (hexec _ _ _ (L.leads h .head)) fun flow m₁ hs hgood => ?_
    cases flow with
    | next => exact ih (L.leads h (.tail hs))
    | returned v => exact L.pure hgood

include heval hexec in
theorem rounds {c : Expr} {body : Stmt} (i : Nat) (h : L.Among ⟨.exec (.loop c body), m, k⟩) :
    L.Holds L.Ends (rounds (eval n c) (exec n body) i) m := by
  induction i generalizing m with
  | zero => exact L.exhausted
  | succ i ih =>
    refine L.bind (heval _ _ _ (L.leads h .test)) fun v m₁ hv _ => ?_
    by_cases htrue : v.truthy = true
    · rw [if_pos htrue]
      refine L.bind (hexec _ _ _ (L.leads h (.round hv htrue))) fun flow m₂ hbody hgood => ?_
      cases flow with
      | next => exact ih (L.leads h (.again hv htrue hbody))
      | returned w => exact L.pure hgood
    · rw [if_neg htrue]
      exact L.pure L.next

/-! ### Calls -/

include hexec in
theorem invoke {f : Closure} {vs : List Value} (hf : L.Good m.heap (.callable (.function f)))
    (hvs : L.AllGood m.heap vs)
    (h : L.Among ⟨.execAll f.body, m.within f.frame (.ofArguments f.params vs), k⟩) :
    L.Holds L.Good (invoke (exec n) (.function f) vs) m := by
  refine L.bind (L.enter hf hvs (L.sequence hexec f.body h)) fun flow m₁ _ hgood => ?_
  cases flow with
  | next => exact L.pure (L.plain .nil)
  | returned v => exact L.pure (hgood v rfl)

include hexec in
theorem call {t : Token} {v : Value} {vs : List Value} (hv : L.Good m.heap v)
    (hvs : L.AllGood m.heap vs) (h : L.Among ⟨.call t v vs, m, k⟩) :
    L.Holds L.Good (call (exec n) t v vs) m := by
  cases v with
  | callable c =>
    rw [Run.call]
    by_cases harity : c.arity = vs.length
    · rw [if_neg (not_not_intro harity)]
      refine L.guard (fun _ => L.raise _ _) fun hdepth => L.deeper ?_
      cases c with
      | clock => exact L.tick
      | function f => exact L.invoke hexec hv hvs (L.leads h (.body harity hdepth))
    · rw [if_pos harity]
      exact L.raise _ _
  | _ => exact L.raise _ _

/-! ### One form over its parts -/

include heval hexec in
theorem exprStep (e : Expr) (h : L.Among ⟨.eval e, m, k⟩) :
    L.Holds L.Good (exprStep (eval n) (exec n) e) m := by
  cases e with
  | literal v => exact L.pure (L.plain (.toValue v))
  | «variable» x => exact L.readName x
  | assign x e =>
    refine L.bind (heval _ _ _ (L.leads h .assign)) fun v m₁ _ hgood => ?_
    exact L.bind (L.assign x hgood) fun _ m₂ _ hkept => L.pure hkept
  | unary op e =>
    exact L.bind (heval _ _ _ (L.leads h .unary)) fun v m₁ _ _ => L.unary op v
  | binary l op r =>
    refine L.bind (heval _ _ _ (L.leads h .left)) fun a m₁ ha _ => ?_
    exact L.bind (heval _ _ _ (L.leads h (.right ha))) fun b m₂ _ _ => L.binary op a b
  | logical l op r =>
    refine L.bind (heval _ _ _ (L.leads h .decider)) fun a m₁ ha hgood => ?_
    by_cases hop : decides op a = true
    · rw [if_pos hop]
      exact L.pure hgood
    · rw [if_neg hop]
      exact heval _ _ _ (L.leads h (.undecided ha hop))
  | grouping e => exact heval _ _ _ (L.leads h .grouping)
  | call f t args =>
    refine L.bind (heval _ _ _ (L.leads h .callee)) fun v m₁ hv hgood => ?_
    refine L.bind (L.mapM heval args (L.leads h (.arguments hv))) fun vs m₂ hvs hgoods => ?_
    exact L.call hexec (L.mono (mapM_continues hvs).heap hgood) hgoods (L.leads h (.called hv hvs))

include heval hexec in
theorem stmtStep (s : Stmt) (h : L.Among ⟨.exec s, m, k⟩) :
    L.Holds L.Ends (stmtStep n (eval n) (exec n) s) m := by
  cases s with
  | expression e =>
    exact L.bind (heval _ _ _ (L.leads h .expression)) fun _ _ _ _ => L.pure L.next
  | print t e =>
    refine L.bind (heval _ _ _ (L.leads h .print)) fun v m₁ hv _ => ?_
    exact L.bind (L.printLine h hv) fun _ _ _ _ => L.pure L.next
  | var x init =>
    have hinit : L.Holds L.Good (evalOptional (eval n) init) m := by
      cases init with
      | none => exact L.pure (L.plain .nil)
      | some e => exact heval _ _ _ (L.leads h .init)
    refine L.bind hinit fun v m₁ _ hgood => ?_
    exact L.bind (L.define x.lexeme hgood) fun _ _ _ _ => L.pure L.next
  | function x ps body => exact L.bind (L.declare h) fun _ _ _ _ => L.pure L.next
  | block body => exact L.block (L.sequence hexec body (L.leads h .block))
  | branch c yes no =>
    refine L.bind (heval _ _ _ (L.leads h .condition)) fun v m₁ hv _ => ?_
    by_cases htrue : v.truthy = true
    · rw [if_pos htrue]
      exact hexec _ _ _ (L.leads h (.yes hv htrue))
    · rw [if_neg htrue]
      cases no with
      | none => exact L.pure L.next
      | some no => exact hexec _ _ _ (L.leads h (.no hv htrue))
  | loop c body => exact L.rounds heval hexec n h
  | ret t value =>
    have hvalue : L.Holds L.Good (evalOptional (eval n) value) m := by
      cases value with
      | none => exact L.pure (L.plain .nil)
      | some e => exact heval _ _ _ (L.leads h .ret)
    exact L.bind hvalue fun v m₁ _ hgood => L.pure (L.returned hgood)

end

/-! ### All forms together -/

/-- What holds of the steps of the machine holds of all expressions and statements. -/
theorem eval_exec (n : Nat) :
    (∀ e m k, L.Among ⟨.eval e, m, k⟩ → L.Holds L.Good (eval n e) m) ∧
      ∀ s m k, L.Among ⟨.exec s, m, k⟩ → L.Holds L.Ends (exec n s) m := by
  induction n with
  | zero =>
    refine ⟨fun e m k _ => ?_, fun s m k _ => ?_⟩
    · rw [eval]
      exact L.exhausted
    · rw [exec]
      exact L.exhausted
  | succ n ih =>
    refine ⟨fun e m k h => ?_, fun s m k h => ?_⟩
    · rw [eval_succ]
      exact L.exprStep ih.1 ih.2 e h
    · rw [exec_succ]
      exact L.stmtStep ih.1 ih.2 s h

theorem execAll (n : Nat) (ss : List Stmt) (h : L.Among ⟨.execAll ss, m, k⟩) :
    L.Holds L.Ends (Run.sequence (exec n) ss) m :=
  L.sequence (L.eval_exec n).2 ss h

end Logic
end Run
end Lox
