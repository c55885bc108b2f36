import Lox.Proofs.Grammar.CursorSteps

/-!
The bookkeeping of a parser with a cursor. Every production comes to an end, leaves as many levels
of nesting open as it found, goes on and never back, and adds to the reports; and it does what the
same production does over the tokens that are left.
-/

namespace Lox
namespace Walk
open Parse Step Keeps

variable {ts : List Token} {before : Array GrammarError} {top size n m k : Nat}

/-! ### Expressions -/

section
variable {e o : Walk Expr} {e' o' : Parse Expr}

section
variable (he : Keeps ts before top size k 1 e e')
include he

theorem keeps_primary : Keeps ts before top size k 1 (primary ts e) (Parse.primary e') := by
  refine takeIf_bind (fun c s t us hA hs hk hsize => ?_) fun c s hA hstops => ?_
  · cases hkind : t.kind with
    | kwTrue | kwFalse | kwNil | number | string | identifier =>
      refine ⟨pure _, ?_, by simp only [hkind]; exact Keeps.pure _⟩
      simp only [primary, matchOne_bind hA hs, matchEither_bind hA hs, hkind, reduceCtorEq,
        if_true, if_false, Bool.false_eq_true, bind_of_ok (previous_step hA hs), List.mem_cons,
        List.not_mem_nil, or_false, false_or]
    | leftParen =>
      refine ⟨do let x ← e; let _ ← consume ts .groupEnd; return .grouping x, ?_, ?_⟩
      · simp only [primary, matchOne_bind hA hs, matchEither_bind hA hs, hkind, reduceCtorEq,
          if_true, if_false, Bool.false_eq_true, List.mem_cons, List.not_mem_nil, or_false]
      · simp only [hkind]
        have he := he.mono (Nat.sub_le size 1) (Nat.le_refl 1)
        exact (he.bind fun _ => Keeps.consume_pure _ _).weaken
    | _ => simp [hkind, startsPrimary] at hk
  · refine ⟨fail ts .noExpression, ?_, Keeps.fail _⟩
    simp (disch := decide) only [primary, matchOne_bind_stops hA hstops,
      matchEither_bind_stops hA hstops, Bool.false_eq_true, if_false]

theorem keeps_finishCall (callee : Expr) (hn : size < n) (hm : size ≤ m) :
    Keeps ts before top size k 1 (finishCall ts n e callee) (do
      let args ← Parse.items m maxArguments .tooManyArguments e'
      return .call callee (← Parse.expect .argumentsEnd) args) :=
  (he.items hn hm (by decide)).bind fun _ => (Keeps.consume _).bind fun _ => Keeps.pure _

theorem keeps_callFrom {i j : Nat} (callee : Expr) (hn : size < n) (hm : size ≤ m)
    (hi : size < i) (hj : size ≤ j) :
    Keeps ts before top size k 0 (callFrom ts n e i callee) (callsFrom m e' j callee) := by
  induction i generalizing size j callee with
  | zero => exact absurd hi (Nat.not_lt_zero _)
  | succ i ih =>
    cases j with
    | zero =>
      obtain rfl := Nat.le_zero.mp hj
      exact bind_at_end (fun _ _ => matchOne_none) (Keeps.pure _)
    | succ j =>
      refine skipIf_bind (fun hsize => ?_) (Keeps.pure _)
      have he := he.mono (Nat.sub_le size 1) (Nat.le_refl 1)
      have hcall := (keeps_finishCall he callee (n := n) (m := m) (by omega) (by omega)).bind
        fun callee => ih he callee (j := j) (by omega) (by omega) (by omega) (by omega)
      simpa only [if_true, bind_assoc, pure_bind] using hcall.weaken

theorem keeps_call (hn : size < n) (hm : size ≤ m) :
    Keeps ts before top size k 1 (call ts n e) (callLevel m e') :=
  (keeps_primary he).bind fun callee => keeps_callFrom he callee hn hm hn hm

variable (ho : Keeps ts before top size k 1 o o')
include ho

theorem keeps_unary (hn : size < n) (hm : size ≤ m) :
    Keeps ts before top size k 1 (unary ts n e o) (unaryLevel m e' o') := by
  refine matchEither_previous (fun kind => by cases kind <;> rfl) (fun op _ => ?_)
    (keeps_call he hn hm)
  have ho := ho.mono (Nat.sub_le size 1) (Nat.le_refl 1)
  exact (ho.bind fun _ => Keeps.pure _).weaken

end

section
variable {ops : List Kind} {q : Kind → Bool} {node : Expr → Token → Expr → Expr} {next : Walk Expr}
  {next' : Parse Expr}

theorem keeps_levelFrom (hq : ∀ kind, q kind = ops.contains kind)
    (h : Keeps ts before top size k 1 next next') (left : Expr) (hn : size < n) (hm : size ≤ m) :
    Keeps ts before top size k 0 (levelFrom ts ops node next n left)
      (chainFrom q node next' m left) := by
  induction n generalizing size m left with
  | zero => exact absurd hn (Nat.not_lt_zero _)
  | succ n ih =>
    cases m with
    | zero =>
      obtain rfl := Nat.le_zero.mp hm
      exact bind_at_end (fun _ _ => matchEither_none) (Keeps.pure _)
    | succ m =>
      refine matchEither_previous hq (fun op hsize => ?_) (Keeps.pure _)
      have h := h.mono (Nat.sub_le size 1) (Nat.le_refl 1)
      exact (h.bind fun right => ih h _ (by omega) (by omega)).weaken

theorem keeps_level (hq : ∀ kind, q kind = ops.contains kind)
    (h : Keeps ts before top size k 1 next next') (hn : size < n) (hm : size ≤ m) :
    Keeps ts before top size k 1 (level ts n ops node next) (chain m q node next') :=
  h.bind fun left => keeps_levelFrom hq h left hn hm

end

section
variable (he : Keeps ts before top size k 1 e e') (ho : Keeps ts before top size k 1 o o')
  (hn : size < n) (hm : size ≤ m)
include he ho hn hm

theorem keeps_factor : Keeps ts before top size k 1 (factor ts n e o) (Parse.factor m e' o') :=
  keeps_level (fun kind => by cases kind <;> rfl) (keeps_unary he ho hn hm) hn hm

theorem keeps_term : Keeps ts before top size k 1 (term ts n e o) (Parse.term m e' o') :=
  keeps_level (fun kind => by cases kind <;> rfl) (keeps_factor he ho hn hm) hn hm

theorem keeps_comparison :
    Keeps ts before top size k 1 (comparison ts n e o) (Parse.comparison m e' o') :=
  keeps_level (fun kind => by cases kind <;> rfl) (keeps_term he ho hn hm) hn hm

theorem keeps_equality :
    Keeps ts before top size k 1 (equality ts n e o) (Parse.equality m e' o') :=
  keeps_level (fun kind => by cases kind <;> rfl) (keeps_comparison he ho hn hm) hn hm

theorem keeps_conjunction :
    Keeps ts before top size k 1 (conjunction ts n e o) (Parse.conjunction m e' o') :=
  keeps_level (fun kind => by cases kind <;> rfl) (keeps_equality he ho hn hm) hn hm

theorem keeps_disjunction :
    Keeps ts before top size k 1 (disjunction ts n e o) (Parse.disjunction m e' o') :=
  keeps_level (fun kind => by cases kind <;> rfl) (keeps_conjunction he ho hn hm) hn hm

theorem keeps_assignment :
    Keeps ts before top size k 1 (assignment ts n e o) (Parse.assignment m e' o') := by
  refine (keeps_disjunction he ho hn hm).bind fun left => (?_ : Keeps ts before top size k 0 _ _)
  refine matchOne_previous (fun equals _ => ?_) (Keeps.pure _)
  have he := he.mono (Nat.sub_le size 1) (Nat.le_refl 1)
  refine (he.bind fun value => (?_ : Keeps ts before top (size - 1) k 0 _ _)).weaken
  cases left with
  | «variable» name => exact Keeps.pure _
  | _ => exact (Keeps.reportAt _ _).bind fun _ => Keeps.pure _

end

end

/-- The rounds are enough for the levels that may still be opened and the tokens that are left. -/
theorem keeps_expression_operand (htop : maxNesting ≤ top) (hn : size + (maxNesting - k) < n)
    (hm : size ≤ m) :
    Keeps ts before top size k 1 (expression ts n) (Parse.expression m (maxNesting - k)) ∧
      Keeps ts before top size k 1 (operand ts n) (Parse.operand m (maxNesting - k)) := by
  induction n generalizing k with
  | zero => exact absurd hn (Nat.not_lt_zero _)
  | succ n ih =>
    constructor
    · refine Keeps.nested_room rfl (fun _ => rfl) htop fun hk => ?_
      obtain ⟨he, ho⟩ := ih (k := k + 1) (by omega)
      exact keeps_assignment he ho (by omega) hm
    · refine Keeps.nested_room rfl (fun _ => rfl) htop fun hk => ?_
      obtain ⟨he, ho⟩ := ih (k := k + 1) (by omega)
      exact keeps_unary he ho (by omega) hm

/-! ### Statements -/

section
variable {e : Walk Expr} {e' : Parse Expr} {d st : Walk Stmt} {d' st' : Parse Stmt}

section
variable (hd : Keeps ts before top size k 1 d d') (hn : size < n) (hm : size ≤ m)
include hd hn hm

theorem keeps_blockFrom (stmts : Array Stmt) :
    Keeps ts before top size k 1 (blockFrom ts d n stmts) (do
      let body ← declarations d' m stmts
      let _ ← Parse.expect .blockEnd
      return body) := by
  induction n generalizing size m stmts with
  | zero => exact absurd hn (Nat.not_lt_zero _)
  | succ n ih =>
    have hend {size : Nat} : Keeps ts before top size k 1 _ _ :=
      Keeps.consume_pure .blockEnd stmts.toList
    cases m with
    | zero =>
      obtain rfl := Nat.le_zero.mp hm
      refine bind_at_end (fun _ _ hA hs => by rw [check_eq hA, hs]) ?_
      exact bind_at_end (fun _ _ hA hs => by rw [isAtEnd_eq hA, hs]) hend
    | succ m =>
      have hmore := hd.bind_after fun s hsize =>
        ih (hd.mono (Nat.sub_le size 1) (Nat.le_refl 1)) (by omega) (m := m) (by omega)
          (stmts.push s)
      have hmore := hmore.mono (Nat.le_refl _) (Nat.le_add_left 1 1)
      rw [declarations]
      simp only [bind_assoc]
      refine check_bind fun b => isAtEnd_bind fun b' => ?_
      cases b with
      | true => simpa using hend
      | false =>
        cases b' with
        | true => simpa using hend
        | false => simpa using hmore

theorem keeps_block : Keeps ts before top size k 1 (block ts n d) (blockBody m d') :=
  keeps_blockFrom hd hn hm #[]

theorem keeps_function : Keeps ts before top size k 0 (function ts n d) (functionRest m d') :=
  ((Keeps.consume _).bind fun _ => (Keeps.consume _).bind fun _ =>
    ((Keeps.consume _).items hn hm (by decide)).bind fun _ => (Keeps.consume _).bind fun _ =>
      (Keeps.consume _).bind fun _ => (keeps_block hd hn hm).bind fun _ => Keeps.pure _).weaken

end

section
variable (he : Keeps ts before top size k 1 e e')
include he

theorem keeps_variableDeclaration :
    Keeps ts before top size k 0 (variableDeclaration ts e) (variableRest e') := by
  refine ((Keeps.consume _).bind fun name => (?_ : Keeps ts before top size k 0 _ _)).weaken
  have hend (init : Option Expr) : Keeps ts before top size k 0 _ _ :=
    (Keeps.consume_pure .variableEnd (Stmt.var name init)).weaken
  refine skipIf_bind (fun _ => ?_) ?_
  · have hinit := (he.bind fun x => hend (some x)).mono (Nat.sub_le size 1) (Nat.zero_le _)
    simpa only [if_true, bind_assoc, pure_bind, bind_map_left] using hinit
  · simpa only [Bool.false_eq_true, if_false, pure_bind] using hend none

theorem keeps_expressionStatement :
    Keeps ts before top size k 1 (expressionStatement ts e) (Parse.expressionStatement e') :=
  (he.bind fun _ => Keeps.consume_pure _ _).mono (Nat.le_refl _) (Nat.le_add_right 1 _)

theorem keeps_initializer :
    Keeps ts before top size k 0 (initializer ts e) (forInit e') := by
  have he' := he.mono (Nat.sub_le size 1) (Nat.le_refl 1)
  refine skipIf_bind (fun _ => Keeps.pure _) (skipIf_bind (fun _ => ?_) ?_)
  · exact (keeps_variableDeclaration he').bind fun _ => Keeps.pure _
  · exact ((keeps_expressionStatement he).bind fun _ => Keeps.pure _).weaken

theorem keeps_print (t : Token) : Keeps ts before top size k 0
    (do let x ← e; let _ ← consume ts .printEnd; return .print t x) (printRest t e') :=
  (he.bind fun _ => Keeps.consume_pure _ _).weaken

theorem keeps_return (t : Token) : Keeps ts before top size k 0 (do
    let value ← if !(← check ts .semicolon) then pure (some (← e)) else pure none
    let _ ← consume ts .returnEnd
    return .ret t value) (returnRest t e') := by
  have hend (value : Option Expr) : Keeps ts before top size k 0 _ _ :=
    (Keeps.consume_pure .returnEnd (Stmt.ret t value)).weaken
  refine optionalUntil_bind ?_ ?_
  · simpa only [pure_bind] using (he.bind fun x => hend (some x)).weaken
  · simpa only [pure_bind] using hend none

variable (hst : Keeps ts before top size k 1 st st')
include hst

theorem keeps_if : Keeps ts before top size k 0 (ifStatement ts e st) (ifRest e' st') := by
  refine ((Keeps.consume _).bind fun _ => he.bind fun cond => (Keeps.consume _).bind fun _ =>
    hst.bind fun yes => (?_ : Keeps ts before top size k 0 _ _)).weaken
  refine skipIf_bind (fun _ => ?_) ?_
  · have hno := (hst.bind fun no => Keeps.pure (Stmt.branch cond yes (some no))).mono
      (Nat.sub_le size 1) (Nat.zero_le _)
    simpa only [if_true, bind_assoc, pure_bind, bind_map_left] using hno
  · simpa only [Bool.false_eq_true, if_false, pure_bind] using Keeps.pure _

theorem keeps_while : Keeps ts before top size k 0 (whileStatement ts e st) (whileRest e' st') :=
  ((Keeps.consume _).bind fun _ => he.bind fun _ => (Keeps.consume _).bind fun _ =>
    hst.bind fun _ => Keeps.pure _).weaken

theorem keeps_forBehind (init : Option Stmt) (cond : Option Expr) :
    Keeps ts before top size k 0 (forBehind ts e st init (cond.getD (.literal (.bool true)))) (do
      let _ ← Parse.expect .loopConditionEnd
      let incr ← optionalUntil .rightParen e'
      let _ ← Parse.expect .forEnd
      let body ← st'
      return .forLoop init cond incr body) := by
  refine ((Keeps.consume _).bind fun _ => (?_ : Keeps ts before top size k 0 _ _)).weaken
  have hend (incr : Option Expr) : Keeps ts before top size k 0 _ _ :=
    ((Keeps.consume .forEnd).bind fun _ => hst.bind fun body =>
      Keeps.pure (Stmt.forLoop init cond incr body)).weaken
  refine optionalUntil_bind ?_ ?_
  · simpa only [pure_bind, Stmt.forLoop] using (he.bind fun x => hend (some x)).weaken
  · simpa only [pure_bind, Stmt.forLoop] using hend none

theorem keeps_for : Keeps ts before top size k 0 (forStatement ts e st) (forRest e' st') := by
  refine ((Keeps.consume _).bind fun _ => (keeps_initializer he).bind fun init =>
    (?_ : Keeps ts before top size k 0 _ _)).weaken
  exact optionalUntil_bind (he.bind fun cond => keeps_forBehind he hst init (some cond)).weaken
    (keeps_forBehind he hst init none)

end

/-- Which statement it is, by the next token. -/
theorem statementForm_cons {c : Cursor} {s : Progress} {t : Token} {us : List Token} (n : Nat)
    (e : Walk Expr) (d st : Walk Stmt) (hA : Agrees ts before top k c s) (hs : s.rest = t :: us) :
    statementForm ts n e d st c =
      match t.kind with
      | .kwIf => ifStatement ts e st (step c)
      | .kwPrint => printStatement ts e (step c)
      | .kwReturn => returnStatement ts e (step c)
      | .kwWhile => whileStatement ts e st (step c)
      | .kwFor => forStatement ts e st (step c)
      | .leftBrace => (do return .block (← block ts n d) : Walk Stmt) (step c)
      | _ => expressionStatement ts e c := by
  simp only [statementForm, matchOne_bind hA hs, if_true, if_false, Bool.false_eq_true]
  cases t.kind <;> rfl

theorem declarationForm_cons {c : Cursor} {s : Progress} {t : Token} {us : List Token} (n : Nat)
    (e : Walk Expr) (d st : Walk Stmt) (hA : Agrees ts before top k c s) (hs : s.rest = t :: us) :
    declarationForm ts n e d st c =
      match t.kind with
      | .kwFun => function ts n d (step c)
      | .kwVar => variableDeclaration ts e (step c)
      | _ => st c := by
  simp only [declarationForm, matchOne_bind hA hs, if_true, if_false, Bool.false_eq_true]
  cases t.kind <;> rfl

section
variable (he : Keeps ts before top size k 1 e e') (hd : Keeps ts before top size k 1 d d')
  (hst : Keeps ts before top size k 1 st st') (hn : size < n) (hm : size ≤ m)
include he hd hst hn hm

theorem keeps_statementForm : Keeps ts before top size k 1 (statementForm ts n e d st)
    (statementLevel m e' d' st') := by
  have he' := he.mono (Nat.sub_le size 1) (Nat.le_refl 1)
  have hst' := hst.mono (Nat.sub_le size 1) (Nat.le_refl 1)
  have hd' := hd.mono (Nat.sub_le size 1) (Nat.le_refl 1)
  refine takeIf_bind (fun c s t us hA hs hk hsize => ?_) fun c s hA hstops => ?_
  · have hform := statementForm_cons n e d st hA hs
    cases hkind : t.kind with
    | kwIf =>
      rw [hkind] at hform
      exact ⟨_, hform, by simpa only [hkind] using keeps_if he' hst'⟩
    | kwPrint =>
      rw [hkind] at hform
      refine ⟨_, hform.trans (bind_of_ok (previous_step hA hs) _), ?_⟩
      simpa only [hkind] using keeps_print he' t
    | kwReturn =>
      rw [hkind] at hform
      refine ⟨_, hform.trans (bind_of_ok (previous_step hA hs) _), ?_⟩
      simpa only [hkind] using keeps_return he' t
    | kwWhile =>
      rw [hkind] at hform
      exact ⟨_, hform, by simpa only [hkind] using keeps_while he' hst'⟩
    | kwFor =>
      rw [hkind] at hform
      exact ⟨_, hform, by simpa only [hkind] using keeps_for he' hst'⟩
    | leftBrace =>
      rw [hkind] at hform
      have hblock := (keeps_block hd' (n := n) (m := m) (by omega) (by omega)).bind
        fun body => Keeps.pure (Stmt.block body)
      exact ⟨_, hform, by simpa only [hkind] using hblock.weaken⟩
    | _ => simp [hkind, opensStatement] at hk
  · refine ⟨_, ?_, keeps_expressionStatement he⟩
    simp (disch := decide) only [statementForm, matchOne_bind_stops hA hstops, Bool.false_eq_true,
      if_false]

theorem keeps_declarationForm : Keeps ts before top size k 1 (declarationForm ts n e d st)
    (declarationLevel m e' d' st') := by
  have he' := he.mono (Nat.sub_le size 1) (Nat.le_refl 1)
  have hd' := hd.mono (Nat.sub_le size 1) (Nat.le_refl 1)
  refine takeIf_bind (fun c s t us hA hs hk hsize => ?_) fun c s hA hstops => ?_
  · have hform := declarationForm_cons n e d st hA hs
    cases hkind : t.kind with
    | kwFun =>
      rw [hkind] at hform
      refine ⟨function ts n d, hform, ?_⟩
      simpa only [hkind] using keeps_function hd' (n := n) (m := m) (by omega) (by omega)
    | kwVar =>
      rw [hkind] at hform
      exact ⟨_, hform, by simpa only [hkind] using keeps_variableDeclaration he'⟩
    | _ => simp [hkind, opensDeclaration] at hk
  · refine ⟨_, ?_, hst⟩
    simp (disch := decide) only [declarationForm, matchOne_bind_stops hA hstops,
      Bool.false_eq_true, if_false]

end

end

theorem keeps_declaration_statement (htop : maxNesting ≤ top) (hn : size + (maxNesting - k) < n)
    (hm : size ≤ m) :
    Keeps ts before top size k 1 (declaration ts n) (Parse.declaration m (maxNesting - k)) ∧
      Keeps ts before top size k 1 (statement ts n) (Parse.statement m (maxNesting - k)) := by
  induction n generalizing k with
  | zero => exact absurd hn (Nat.not_lt_zero _)
  | succ n ih =>
    have hinner (hk : k < maxNesting) : size + (maxNesting - (k + 1)) < n := by omega
    constructor
    · refine Keeps.nested_room rfl (fun _ => rfl) htop fun hk => ?_
      obtain ⟨he, -⟩ := keeps_expression_operand htop (hinner hk) hm
      obtain ⟨hd, hst⟩ := ih (hinner hk)
      exact keeps_declarationForm he hd hst (by omega) hm
    · refine Keeps.nested_room rfl (fun _ => rfl) htop fun hk => ?_
      obtain ⟨he, -⟩ := keeps_expression_operand htop (hinner hk) hm
      obtain ⟨hd, hst⟩ := ih (hinner hk)
      exact keeps_statementForm he hd hst (by omega) hm

/-! ### Closing tokens -/

/-- What succeeds has taken a token of some kind last. -/
def Closes {α : Type} (ts : List Token) (kind : Kind) (w : Walk α) : Prop :=
  ∀ c x c', w c = .ok x c' → ∃ t, ts[c'.current - 1]? = some t ∧ t.kind = kind

theorem consume_closes (slot : Slot) : Closes ts slot.kind (consume ts slot) := by
  intro c t c' h
  have hend : isAtEnd ts c = .ok (ts[c.current]?.getD (Token.standIn ts)).isEof c := rfl
  have hpeek : peek ts c = .ok (ts[c.current]?.getD (Token.standIn ts)) c := rfl
  rw [consume, check, bind_assoc, bind_of_ok hend] at h
  cases hnext : ts[c.current]? with
  | none =>
    -- Behind all tokens there is an end marker, which no place takes.
    rw [hnext] at h
    cases h
  | some t' =>
    rw [hnext, Option.getD_some] at h hend hpeek
    cases heof : t'.isEof with
    | true =>
      rw [heof] at h
      cases h
    | false =>
      have hprevious : previous ts (step c) = .ok t' (step c) := by simp [previous, step, hnext]
      have hadvance : advance ts c = .ok t' (step c) := by
        rw [advance, bind_of_ok hend, heof]
        exact hprevious
      rw [heof, if_neg Bool.false_ne_true, bind_assoc, bind_of_ok hpeek, pure_bind] at h
      cases hk : t'.kind == slot.kind with
      | true =>
        rw [hk, if_pos rfl, hadvance] at h
        cases h
        exact ⟨t, hnext, beq_iff_eq.mp hk⟩
      | false =>
        rw [hk] at h
        cases h

theorem Closes.bind {α β : Type} {kind : Kind} {w : Walk α} {f : α → Walk β}
    (h : ∀ x, Closes ts kind (f x)) : Closes ts kind (w >>= f) := by
  intro c y c' hy
  obtain ⟨x, c₁, -, hy⟩ := bind_eq_ok.mp hy
  exact h x c₁ y c' hy

theorem Closes.pure {α β : Type} {kind : Kind} {w : Walk α} (h : Closes ts kind w) (f : α → β) :
    Closes ts kind (w >>= fun x => Pure.pure (f x)) := by
  intro c y c' hy
  obtain ⟨x, c₁, hx, hy⟩ := bind_eq_ok.mp hy
  obtain ⟨-, rfl⟩ := pure_eq_ok.mp hy
  exact h c x c₁ hx

theorem block_closes (d : Walk Stmt) : Closes ts .rightBrace (block ts n d) := by
  suffices ∀ stmts, Closes ts .rightBrace (blockFrom ts d n stmts) from this #[]
  induction n with
  | zero => exact fun _ _ _ _ h => nomatch h
  | succ n ih =>
    intro stmts
    refine .bind fun b => .bind fun b' => ?_
    split
    · exact .bind fun s => ih _
    · exact (consume_closes .blockEnd).pure fun _ => stmts.toList

theorem finishCall_closes (e : Walk Expr) (callee : Expr) :
    Closes ts .rightParen (finishCall ts n e callee) :=
  .bind fun args => (consume_closes .argumentsEnd).pure fun paren => Expr.call callee paren args

end Walk

/-! ### Productions -/

namespace Production
open Walk

variable {ts : List Token} {before : Array GrammarError} {top size n m k : Nat}

/-- The token with which a production ends, if it is always of one kind. -/
def closing? : Production → Option Kind
  | .block => some .rightBrace
  | .finishCall _ => some .rightParen
  | _ => none

theorem closes {kind : Kind} {p : Production} (h : p.closing? = some kind) :
    Closes ts kind (p.walk ts n) := by
  cases p with
  | block =>
    cases h
    exact block_closes _
  | finishCall callee =>
    cases h
    exact finishCall_closes _ callee
  | _ => cases h

theorem keeps (htop : maxNesting ≤ top) (hn : size + (maxNesting - k) < n) (hm : size ≤ m)
    (p : Production) :
    Keeps ts before top size k 1 (p.walk ts n) (p.parse m (maxNesting - k)) := by
  have hsize : size < n := Nat.lt_of_le_of_lt (Nat.le_add_right ..) hn
  obtain ⟨hd, hst⟩ := keeps_declaration_statement htop hn hm
  obtain ⟨he, ho⟩ := keeps_expression_operand htop hn hm
  cases p with
  | declaration => exact hd
  | statement => exact hst
  | block => exact keeps_block hd hsize hm
  | expression => exact he
  | assignment => exact keeps_assignment he ho hsize hm
  | disjunction => exact keeps_disjunction he ho hsize hm
  | conjunction => exact keeps_conjunction he ho hsize hm
  | equality => exact keeps_equality he ho hsize hm
  | comparison => exact keeps_comparison he ho hsize hm
  | term => exact keeps_term he ho hsize hm
  | factor => exact keeps_factor he ho hsize hm
  | unary => exact keeps_unary he ho hsize hm
  | call => exact keeps_call he hsize hm
  | finishCall callee => exact keeps_finishCall he callee hsize hm
  | primary => exact keeps_primary he

end Production

/-! ### The bookkeeping -/

/-- What lasts of a cursor: as many levels are open as before, there never were more than may be
open, the cursor has not gone back or past the first end marker, and all reports are still there. -/
structure Cursor.Kept (ts : List Token) (c c' : Cursor) : Prop where
  nesting : c'.nesting = c.nesting
  peak : c'.peak ≤ max c.peak maxNesting
  forward : c.current ≤ c'.current
  inside : c'.current ≤ ts.findIdx Token.isEof
  reports : ∃ added, c'.reports = c.reports ++ added

open Step in
/-- A production comes to an end wherever the cursor stands in front of the first end marker or at
it, and however many levels are open. Whether it succeeds or not, what lasts of the cursor is kept;
if it succeeds, it has taken a token, and a block and a call have taken the one that closes them
last. The outcome is that of the same production over the tokens that are left. -/
theorem Production.bookkeeping (ts : List Token) (c : Cursor)
    (hc : c.current ≤ ts.findIdx Token.isEof) (p : Production) :
    let rest := (Parser.ofTokens ts).rest.drop c.current
    let room := maxNesting - c.nesting
    let stop := (Parser.ofTokens ts).stop
    ∃ o s, p.parse rest.length room ⟨rest, #[]⟩ = ended o s ∧
      ∀ n, rest.length + room < n → ∃ c',
        p.walk ts n c = ended (o.mapError fun e => .error (e.toError stop)) c' ∧
        c.Kept ts c' ∧
        (∀ x, o = .ok x → c.current < c'.current ∧
          ∀ kind ∈ p.closing?, ∃ t, ts[c'.current - 1]? = some t ∧ t.kind = kind) ∧
        s.rest = (Parser.ofTokens ts).rest.drop c'.current ∧
        c'.reports = c.reports ++ s.reports.map (·.toError stop) := by
  intro rest room stop
  have hstart : Walk.Agrees ts c.reports (max c.peak maxNesting) c.nesting c ⟨rest, #[]⟩ :=
    ⟨hc, rfl, rfl, Nat.le_max_left .., by simp⟩
  have hends (n : Nat) (hn : rest.length + room < n) :=
    p.keeps (Nat.le_max_right c.peak maxNesting) hn (Nat.le_refl _) c _ hstart (Nat.le_refl _)
  generalize hparse : p.parse rest.length (maxNesting - c.nesting) ⟨rest, #[]⟩ = y at hends
  cases y with
  | ok x s =>
    refine ⟨.ok x, s, rfl, fun n hn => ?_⟩
    have hends := hends n hn
    generalize hwalk : p.walk ts n c = z at hends
    cases hends with
    | @ok _ c' _ hA hle =>
      exact ⟨c', rfl, ⟨hA.nesting, hA.peak, Nat.le_of_lt hle, hA.current, _, hA.reports⟩,
        fun _ _ => ⟨hle, fun kind hk => p.closes hk c x c' hwalk⟩, hA.rest, hA.reports⟩
  | error e s =>
    refine ⟨.error e, s, rfl, fun n hn => ?_⟩
    have hends := hends n hn
    generalize hwalk : p.walk ts n c = z at hends
    cases hends with
    | @error _ c' _ hA hle =>
      exact ⟨c', rfl, ⟨hA.nesting, hA.peak, hle, hA.current, _, hA.reports⟩, nofun, hA.rest,
        hA.reports⟩

/-- With one level left, two prefix operators are one too many. The level that was opened is closed
again, and the cursor is behind the first operator. -/
theorem Production.bookkeeping_full :
    let minus : Token := ⟨.minus, "-", 1, 0, 0, .nil⟩
    let again : Token := ⟨.minus, "-", 1, 1, 1, .nil⟩
    ∀ n, 3 < n → ∃ peak, expression.walk [minus, again] n ⟨0, 1023, 1023, #[]⟩ =
      .error (.error ⟨.tooMuchNesting, again⟩) ⟨1, 1023, peak, #[]⟩ ∧ peak ≤ 1024 := by
  intro minus again n hn
  obtain ⟨o, s, hparse, hwalk⟩ :=
    bookkeeping [minus, again] ⟨0, 1023, 1023, #[]⟩ (Nat.zero_le _) expression
  have hknown : expression.parse 2 1 ⟨[minus, again], #[]⟩ =
      Step.ended (.error ⟨.tooMuchNesting, some again⟩) ⟨[again], #[]⟩ := by cbv
  obtain ⟨rfl, rfl⟩ := Step.ended_inj.mp (hparse.symm.trans hknown)
  obtain ⟨⟨current, nesting, peak, reports⟩, hwalk, hkept, -, hrest, hreports⟩ := hwalk n hn
  have hcurrent : current = 1 := by
    have hlen := congrArg List.length hrest
    rw [List.length_drop, Parser.length_rest] at hlen
    have hinside : current ≤ 2 := hkept.inside
    change 1 = 2 - current at hlen
    omega
  obtain rfl : nesting = 1023 := hkept.nesting
  obtain rfl : reports = #[] := by simpa using hreports
  subst hcurrent
  exact ⟨peak, hwalk, hkept.peak⟩

end Lox
