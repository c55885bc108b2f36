import Lox.Proofs.Grammar.Accept
import Lox.Proofs.Grammar.Print
import Mathlib

/-!
Trees and tokens determine each other. A tree that respects the levels of the grammar is read back
from its tokens, and what was parsed is written as it was.
-/

namespace Lox
open Parse

/-! ### Which trees can be written -/

/-- How loosely an operator binds. -/
def Kind.rank : Kind → Nat
  | .slash | .star => 3
  | .plus | .minus => 4
  | .greater | .greaterEqual | .less | .lessEqual => 5
  | .bangEqual | .equalEqual => 6
  | .kwAnd => 7
  | _ => 8

/-- How loosely an expression binds, from 0 for what stands by itself to 9 for an assignment. -/
def Expr.rank : Expr → Nat
  | .literal _ | .variable _ | .grouping _ => 0
  | .call .. => 1
  | .unary .. => 2
  | .binary _ op _ | .logical _ op _ => op.kind.rank
  | .assign .. => 9

/-- The operators of binary nodes. -/
def isBinaryOp (k : Kind) : Bool := isFactorOp k || isTermOp k || isComparisonOp k || isEqualityOp k

/-- The operators of logical nodes. -/
def isLogicalOp (k : Kind) : Bool := k == .kwAnd || k == .kwOr

mutual

/-- The tokens in an expression are of the kinds they stand for, and each part of it binds as
tightly as its place asks for. -/
def Expr.wellFormed : Expr → Bool
  | .literal _ => true
  | .variable x => x.kind == .identifier
  | .assign x v => x.kind == .identifier && v.wellFormed
  | .unary op e => isPrefixOp op.kind && e.rank ≤ 2 && e.wellFormed
  | .binary l op r => isBinaryOp op.kind && l.rank ≤ op.kind.rank && r.rank < op.kind.rank &&
      l.wellFormed && r.wellFormed
  | .logical l op r => isLogicalOp op.kind && l.rank ≤ op.kind.rank && r.rank < op.kind.rank &&
      l.wellFormed && r.wellFormed
  | .grouping e => e.wellFormed
  | .call f paren args => paren.kind == .rightParen && f.rank ≤ 1 && f.wellFormed &&
      args.length ≤ maxArguments && Expr.allWellFormed args

/-- All of some expressions are well formed. -/
def Expr.allWellFormed : List Expr → Bool
  | [] => true
  | e :: es => e.wellFormed && Expr.allWellFormed es

end

mutual

/-- How many levels an expression has open at once, beyond its own. -/
def Expr.nesting : Expr → Nat
  | .literal _ | .variable _ => 0
  | .assign _ v => v.nesting + 1
  | .unary _ e => e.nesting + 1
  | .binary l _ r | .logical l _ r => max l.nesting r.nesting
  | .grouping e => e.nesting + 1
  | .call f _ args => max f.nesting (Expr.allNesting args)

/-- How many levels some expressions have open at once. -/
def Expr.allNesting : List Expr → Nat
  | [] => 0
  | e :: es => max (e.nesting + 1) (Expr.allNesting es)

end

/-- Whether a statement may only stand where a declaration may. -/
def Stmt.isDeclaration : Stmt → Bool
  | .var .. | .function .. => true
  | _ => false

/-- Whether a statement ends in an `if` without an `else`. -/
def Stmt.tail : Stmt → Tail
  | .branch _ _ none => .dangling
  | .branch _ _ (some no) => no.tail
  | .loop _ body => body.tail
  | _ => .closed

mutual

/-- The tokens in a statement are of the kinds they stand for, and its parts may stand where they
are. -/
def Stmt.wellFormed : Stmt → Bool
  | .expression e => e.wellFormed
  | .print k e => k.kind == .kwPrint && e.wellFormed
  | .var x e => x.kind == .identifier && e.all Expr.wellFormed
  | .function x ps body => x.kind == .identifier && ps.all (·.kind == .identifier) &&
      ps.length ≤ maxParameters && Stmt.allWellFormed body
  | .block body => Stmt.allWellFormed body
  | .branch c yes none => c.wellFormed && !yes.isDeclaration && yes.wellFormed
  | .branch c yes (some no) => c.wellFormed && !yes.isDeclaration && yes.wellFormed &&
      yes.tail == .closed && !no.isDeclaration && no.wellFormed
  | .loop c body => c.wellFormed && !body.isDeclaration && body.wellFormed
  | .ret k e => k.kind == .kwReturn && e.all Expr.wellFormed

/-- All of some statements are well formed. -/
def Stmt.allWellFormed : List Stmt → Bool
  | [] => true
  | s :: ss => s.wellFormed && Stmt.allWellFormed ss

end

/-- How many levels a part that may be missing has open at once. -/
def optionalNesting (e : Option Expr) : Nat := (e.map (·.nesting + 1)).getD 0

mutual

/-- How many levels a statement has open at once, with its own. -/
def Stmt.nesting : Stmt → Nat
  | .expression e | .print _ e => e.nesting + 2
  | .var _ e | .ret _ e => optionalNesting e + 1
  | .function _ _ body | .block body => Stmt.allNesting body + 1
  | .branch c yes none => max (c.nesting + 1) yes.nesting + 1
  | .branch c yes (some no) => max (c.nesting + 1) (max yes.nesting no.nesting) + 1
  | .loop c body => max (c.nesting + 1) body.nesting + 1

/-- How many levels some declarations have open at once. A statement that is one opens another. -/
def Stmt.allNesting : List Stmt → Nat
  | [] => 0
  | s :: ss => max (s.nesting + if s.isDeclaration then 0 else 1) (Stmt.allNesting ss)

end

/-! ### Reading what was written -/

namespace Reading

section
variable {E O : Reading Expr} {ts : List Token} {e : Expr} {fl : Array Problem}

/-- What reads expressions that bind at most as loosely as a rank says. -/
def Ranked (E O : Reading Expr) : Nat → Reading Expr
  | 0 => Primary E
  | 1 => Called E
  | 2 => Unary E O
  | 3 => Factor E O
  | 4 => Term E O
  | 5 => Comparison E O
  | 6 => Equality E O
  | 7 => Conjunction E O
  | 8 => Disjunction E O
  | _ => Assignment E O

theorem ranked_succ {r : Nat} (h : Ranked E O r ts e fl) : Ranked E O (r + 1) ts e fl := by
  match r with
  | 0 => exact .primary h
  | 1 => exact .call h
  | 2 | 3 | 4 | 5 | 6 | 7 => exact .one h
  | 8 => exact .plain h
  | _ + 9 => exact h

theorem ranked_mono {r r' : Nat} (hr : r ≤ r') (h : Ranked E O r ts e fl) :
    Ranked E O r' ts e fl := by
  induction hr with
  | refl => exact h
  | step _ ih => exact ranked_succ ih

theorem expression_of_ranked {r n : Nat} (hr : r ≤ 9)
    (h : Ranked (Expression n) (Operand n) r ts e fl) : Expression (n + 1) ts e fl :=
  ranked_mono hr h

variable {vs : List Token} {e' : Expr} {fl' : Array Problem}

theorem ranked_binary {op : Token} (hop : isBinaryOp op.kind = true)
    (h : Ranked E O op.kind.rank ts e fl) {r : Nat} (hr : r < op.kind.rank)
    (h' : Ranked E O r vs e' fl') :
    Ranked E O op.kind.rank (ts ++ op :: vs) (.binary e op e') (fl ++ fl') := by
  have h' := ranked_mono (Nat.le_sub_one_of_lt hr) h'
  cases hk : op.kind <;> simp only [isBinaryOp, isFactorOp, isTermOp, isComparisonOp, isEqualityOp,
    hk, Bool.or_false, Bool.false_eq_true] at hop <;> rw [hk] at h h' <;>
    exact Chained.more op h (by rw [hk]; rfl) h'

theorem ranked_logical {op : Token} (hop : isLogicalOp op.kind = true)
    (h : Ranked E O op.kind.rank ts e fl) {r : Nat} (hr : r < op.kind.rank)
    (h' : Ranked E O r vs e' fl') :
    Ranked E O op.kind.rank (ts ++ op :: vs) (.logical e op e') (fl ++ fl') := by
  have h' := ranked_mono (Nat.le_sub_one_of_lt hr) h'
  rcases by simpa [isLogicalOp] using hop with hk | hk : op.kind = .kwAnd ∨ op.kind = .kwOr
  all_goals
    rw [hk] at h h' ⊢
    exact Chained.more op h (by rw [hk]; rfl) h'

/-- Every expression binds at most as loosely as an assignment. -/
theorem rank_le (e : Expr) : e.rank ≤ 9 := by
  have hk : ∀ k : Kind, k.rank ≤ 9 := fun k => by cases k <;> simp [Kind.rank]
  cases e <;> first | exact hk _ | simp [Expr.rank]

/-- Items that are not too many are read one by one, without a flaw. -/
theorem items_read {α : Type} {P : Reading α} {q : Kind → Bool} (hP : Starts q P) {limit : Nat}
    {flaw : Flaw} {write : α → List Token} (xs : List α) (hlen : xs.length ≤ limit)
    (h : ∀ x ∈ xs, P (write x) x #[]) :
    Items limit flaw P (commas (xs.map write)) xs #[] := by
  by_cases hnil : xs = []
  · subst hnil
    exact .none
  · refine .some ?_
    induction xs using List.reverseRecOn with
    | nil => exact absurd rfl hnil
    | append_singleton xs x ih =>
      simp only [List.forall_mem_append, List.forall_mem_singleton] at h
      rw [List.length_append, List.length_singleton] at hlen
      cases xs with
      | nil =>
        simp only [List.nil_append, List.map_singleton, commas_one]
        exact .one h.2
      | cons y ys =>
        have hys := ih (Nat.le_of_succ_le hlen) h.1 (List.cons_ne_nil _ _)
        obtain ⟨t, us, hts, -⟩ := hP _ _ _ h.2
        have hx := h.2
        rw [List.map_append, List.map_singleton, commas_concat (by simp), hts]
        rw [hts] at hx
        have hall := hys.more (.fixed .comma) t rfl hx
        rw [overflow, if_neg (by omega)] at hall
        simpa using hall

end

end Reading
open Reading

/-- What opens a level leaves the levels beyond it to its parts. -/
theorem exists_room {k n : Nat} (h : k + 1 ≤ n) : ∃ m, n = m + 1 ∧ k ≤ m := by
  obtain ⟨m, rfl⟩ := Nat.exists_eq_add_of_le' (Nat.le_trans (Nat.le_add_left 1 k) h)
  exact ⟨m, rfl, Nat.le_of_succ_le_succ h⟩

mutual

theorem Expr.ranked (n : Nat) : ∀ e : Expr, e.wellFormed = true → e.nesting ≤ n →
    Ranked (Expression n) (Operand n) e.rank e.tokens e #[]
  | .literal v, _, _ => by
    refine .literal _ ?_
    cases v with
    | bool b => cases b <;> rfl
    | _ => rfl
  | .variable x, hw, _ => .name x (by simpa [wellFormed] using hw)
  | .assign x v, hw, hn => by
    simp only [wellFormed, Bool.and_eq_true, beq_iff_eq] at hw
    obtain ⟨n, rfl, hroom⟩ := exists_room hn
    have hv := Expr.ranked n v hw.2 hroom
    have hx : Ranked (Expression (n + 1)) (Operand (n + 1)) 0 [x] (.variable x) #[] := .name x hw.1
    suffices Assignment (Expression (n + 1)) (Operand (n + 1)) (Expr.assign x v).tokens
      (.assign x v) #[] from this
    simpa [Expr.tokens] using
      Assignment.assign x (.fixed .equal) (ranked_mono (Nat.zero_le 8) hx) rfl
      (expression_of_ranked (rank_le v) hv)
  | .unary op e, hw, hn => by
    simp only [wellFormed, Bool.and_eq_true, decide_eq_true_eq] at hw
    obtain ⟨n, rfl, hroom⟩ := exists_room hn
    have he := Expr.ranked n e hw.2 hroom
    exact .operator op hw.1.1 (ranked_mono hw.1.2 he)
  | .binary l op r, hw, hn => by
    simp only [wellFormed, Bool.and_eq_true, decide_eq_true_eq] at hw
    obtain ⟨⟨⟨⟨hop, hlr⟩, hrr⟩, hwl⟩, hwr⟩ := hw
    have hl := Expr.ranked n l hwl (Nat.le_trans (Nat.le_max_left _ _) hn)
    have hr := Expr.ranked n r hwr (Nat.le_trans (Nat.le_max_right _ _) hn)
    exact ranked_binary hop (ranked_mono hlr hl) hrr hr
  | .logical l op r, hw, hn => by
    simp only [wellFormed, Bool.and_eq_true, decide_eq_true_eq] at hw
    obtain ⟨⟨⟨⟨hop, hlr⟩, hrr⟩, hwl⟩, hwr⟩ := hw
    have hl := Expr.ranked n l hwl (Nat.le_trans (Nat.le_max_left _ _) hn)
    have hr := Expr.ranked n r hwr (Nat.le_trans (Nat.le_max_right _ _) hn)
    exact ranked_logical hop (ranked_mono hlr hl) hrr hr
  | .grouping e, hw, hn => by
    obtain ⟨n, rfl, hroom⟩ := exists_room hn
    have he := Expr.ranked n e hw hroom
    exact .group _ _ rfl (expression_of_ranked (rank_le e) he) rfl
  | .call f paren args, hw, hn => by
    simp only [wellFormed, Bool.and_eq_true, decide_eq_true_eq, beq_iff_eq] at hw
    obtain ⟨⟨⟨⟨hp, hfr⟩, hwf⟩, hlen⟩, hwa⟩ := hw
    have hf := Expr.ranked n f hwf (Nat.le_trans (Nat.le_max_left _ _) hn)
    have ha := Expr.allRead n args hwa (Nat.le_trans (Nat.le_max_right _ _) hn)
    have hitems : Items maxArguments .tooManyArguments (Expression n) _ args #[] :=
      items_read (expression_starts n) args hlen ha
    rw [Expr.tokens, Expr.allTokens_eq_map]
    exact .call _ paren (ranked_mono hfr hf) rfl hitems hp

theorem Expr.allRead (n : Nat) : ∀ es : List Expr, Expr.allWellFormed es = true →
    Expr.allNesting es ≤ n → ∀ e ∈ es, Expression n e.tokens e #[]
  | [], _, _ => nofun
  | e :: es, hw, hn => by
    simp only [allWellFormed, Bool.and_eq_true] at hw
    refine List.forall_mem_cons.mpr ⟨?_, Expr.allRead n es hw.2
      (Nat.le_trans (Nat.le_max_right _ _) hn)⟩
    have hn := Nat.le_trans (Nat.le_max_left _ _) hn
    obtain ⟨n, rfl, hroom⟩ := exists_room hn
    exact expression_of_ranked (rank_le e) (Expr.ranked n e hw.1 hroom)

end

theorem Expr.read {n : Nat} {e : Expr} (hw : e.wellFormed = true) (hn : e.nesting < n) :
    Expression n e.tokens e #[] := by
  obtain ⟨n, rfl, hroom⟩ := exists_room hn
  exact expression_of_ranked (rank_le e) (Expr.ranked n e hw hroom)

theorem optional_read {n : Nat} {e : Option Expr} (hw : e.all Expr.wellFormed = true)
    (hn : optionalNesting e ≤ n) : Optional (Expression n) (optionalTokens e) e #[] := by
  cases e with
  | none => exact .none
  | some e => exact .some (Expr.read hw hn)

theorem block_read {n : Nat} {ss : List Stmt} {ts : List Token}
    (h : Declarations (Declaration n) ts ss #[]) :
    Block (Declaration n) (ts ++ [.fixed .rightBrace]) ss #[] :=
  .mk _ h rfl

mutual

/-- A statement is read from its tokens, as a declaration if it is one. -/
theorem Stmt.read (n : Nat) : ∀ s : Stmt, s.wellFormed = true → s.nesting ≤ n →
    if s.isDeclaration then Declaration n s.tokens s #[] else Statement n s.tail s.tokens s #[]
  | .expression e, hw, hn => by
    obtain ⟨n, rfl, hroom⟩ := exists_room hn
    exact .effect (.mk _ (Expr.read hw hroom) rfl)
  | .print k e, hw, hn => by
    simp only [wellFormed, Bool.and_eq_true, beq_iff_eq] at hw
    obtain ⟨n, rfl, hroom⟩ := exists_room hn
    exact .print k hw.1 (.mk _ (Expr.read hw.2 hroom) rfl)
  | .var x none, hw, hn => by
    simp only [wellFormed, Bool.and_eq_true, beq_iff_eq] at hw
    obtain ⟨n, rfl, -⟩ := exists_room hn
    exact .var _ rfl (.bare x _ hw.1 rfl)
  | .var x (some e), hw, hn => by
    simp only [wellFormed, Bool.and_eq_true, beq_iff_eq] at hw
    obtain ⟨n, rfl, hroom⟩ := exists_room hn
    exact .var _ rfl (.init x _ _ hw.1 rfl (Expr.read hw.2 hroom) rfl)
  | .function x ps body, hw, hn => by
    simp only [wellFormed, Bool.and_eq_true, beq_iff_eq, decide_eq_true_eq, List.all_eq_true] at hw
    obtain ⟨⟨⟨hx, hps⟩, hlen⟩, hbody⟩ := hw
    obtain ⟨n, rfl, hroom⟩ := exists_room hn
    have hparams : Items maxParameters .tooManyParameters Name _ ps #[] :=
      items_read name_starts ps hlen fun p hp => .mk p (hps p hp)
    have hbody := block_read (Stmt.allRead n body hbody hroom)
    exact .function _ rfl (.mk x _ _ _ hx rfl hparams rfl rfl hbody)
  | .block body, hw, hn => by
    obtain ⟨n, rfl, hroom⟩ := exists_room hn
    exact .block _ rfl (block_read (Stmt.allRead n body hw hroom))
  | .branch c yes none, hw, hn => by
    simp only [wellFormed, Bool.and_eq_true, Bool.not_eq_true'] at hw
    obtain ⟨⟨hc, hdecl⟩, hyes⟩ := hw
    obtain ⟨n, rfl, hroom⟩ := exists_room hn
    obtain ⟨hnc, hny⟩ := Nat.max_le.mp hroom
    have hyes := Stmt.read n yes hyes hny
    rw [if_neg (by simp [hdecl])] at hyes
    exact .branch _ rfl (.lone _ _ rfl (Expr.read hc hnc) rfl hyes)
  | .branch c yes (some no), hw, hn => by
    simp only [wellFormed, Bool.and_eq_true, Bool.not_eq_true', beq_iff_eq] at hw
    obtain ⟨⟨⟨⟨⟨hc, hdecl⟩, hyes⟩, htail⟩, hdecl'⟩, hno⟩ := hw
    obtain ⟨n, rfl, hroom⟩ := exists_room hn
    obtain ⟨hnc, hn⟩ := Nat.max_le.mp hroom
    obtain ⟨hny, hnn⟩ := Nat.max_le.mp hn
    have hyes := Stmt.read n yes hyes hny
    have hno := Stmt.read n no hno hnn
    rw [if_neg (by simp [hdecl]), htail] at hyes
    rw [if_neg (by simp [hdecl'])] at hno
    exact .branch _ rfl (.both _ _ _ rfl (Expr.read hc hnc) rfl hyes rfl hno)
  | .loop c body, hw, hn => by
    simp only [wellFormed, Bool.and_eq_true, Bool.not_eq_true'] at hw
    obtain ⟨⟨hc, hdecl⟩, hbody⟩ := hw
    obtain ⟨n, rfl, hroom⟩ := exists_room hn
    obtain ⟨hnc, hnb⟩ := Nat.max_le.mp hroom
    have hbody := Stmt.read n body hbody hnb
    rw [if_neg (by simp [hdecl])] at hbody
    exact .loop _ rfl (.mk _ _ rfl (Expr.read hc hnc) rfl hbody)
  | .ret k e, hw, hn => by
    simp only [wellFormed, Bool.and_eq_true, beq_iff_eq] at hw
    obtain ⟨n, rfl, hroom⟩ := exists_room hn
    exact .ret k hw.1 (.mk _ (optional_read hw.2 hroom) rfl)

theorem Stmt.allRead (n : Nat) : ∀ ss : List Stmt, Stmt.allWellFormed ss = true →
    Stmt.allNesting ss ≤ n → Declarations (Declaration n) (Stmt.allTokens ss) ss #[]
  | [], _, _ => .nil
  | s :: ss, hw, hn => by
    simp only [allWellFormed, Bool.and_eq_true] at hw
    obtain ⟨hns, hnss⟩ := Nat.max_le.mp hn
    have hs : Declaration n s.tokens s #[] := by
      by_cases hdecl : s.isDeclaration = true
      · have := Stmt.read n s hw.1 (by simpa [hdecl] using hns)
        rwa [if_pos hdecl] at this
      · rw [if_neg hdecl] at hns
        obtain ⟨n, rfl, hroom⟩ := exists_room hns
        have := Stmt.read n s hw.1 hroom
        rw [if_neg hdecl] at this
        exact .statement this
    simpa [Stmt.allTokens] using Declarations.cons hs (Stmt.allRead n ss hw.2 hnss)

end

/-! ### Programs -/

/-- Parsing succeeds exactly if all tokens that are left have a reading without flaws. -/
theorem Parser.parse_ok_iff {p : Parser} {ss : List Stmt} :
    p.parse.1 = .ok ss ↔ Declarations (Declaration maxNesting) p.rest ss #[] := by
  have hp : ∀ {ss s}, program p.rest.length ⟨p.rest, #[]⟩ = .ok ss s ↔ _ := program_eq_ok
  constructor
  · intro h
    cases hs : program p.rest.length ⟨p.rest, #[]⟩ with
    | error e s =>
      rw [(parse_of_error hs).1] at h
      cases h
    | ok ss' s =>
      obtain ⟨fl, hread, rfl⟩ := hp.mp hs
      rw [(parse_of_ok hs).1] at h
      by_cases hfl : fl.isEmpty = true
      · simp only [hfl, if_true, Except.ok.injEq] at h
        rwa [← h, ← Array.isEmpty_iff.mp hfl]
      · simp [hfl] at h
  · intro h
    rw [(parse_of_ok (hp.mpr ⟨_, h, rfl⟩)).1]
    rfl

/-- Parsing succeeds exactly if all tokens have a reading without flaws. -/
theorem Parser.parse_eq_ok {ts : List Token} {ss : List Stmt} :
    (Parser.ofTokens ts).parse.1 = .ok ss ↔
      Declarations (Declaration maxNesting) (ts.takeWhile (!·.isEof)) ss #[] :=
  Parser.parse_ok_iff

/-- No token of a program ends it. -/
theorem not_isEof_of_read {n : Nat} {ts : List Token} {ss : List Stmt} {fl : Array Problem}
    (h : Declarations (Declaration n) ts ss fl) : ∀ t ∈ ts, t.isEof = false := by
  intro t ht
  have hspell := declarations_spell (declaration_statement_spell .any n).1 _ _ _ h
  cases heof : t.isEof with
  | false => rfl
  | true =>
    rw [Token.isEof, beq_iff_eq] at heof
    exact absurd (heof ▸ List.mem_map_of_mem ht) hspell.eof_not_mem

/-- Trees and tokens determine each other. What was scanned and parsed, if there is no `for` in it,
is written as tokens like those it was read from; and what can be written within the levels that
there may be is read back, whatever is behind the end marker. -/
theorem Parser.round_trip :
    (∀ (src : String) (ss : List Stmt), (∀ t ∈ (scan src).1, t.kind ≠ .kwFor) →
      (Parser.ofTokens (scan src).1).parse.1 = .ok ss →
      AllAlike (Stmt.allTokens ss) ((scan src).1.takeWhile (!·.isEof))) ∧
    ∀ (ss : List Stmt) (rest : List Token), Stmt.allWellFormed ss = true →
      Stmt.allNesting ss ≤ maxNesting → (∀ t ∈ rest.head?, t.isEof = true) →
      (Parser.ofTokens (Stmt.allTokens ss ++ rest)).parse.1 = .ok ss := by
  refine ⟨fun src ss hfor h => ?_, fun ss rest hw hn hrest => ?_⟩
  · refine declarations_rewritten (declaration_statement_rewritten maxNesting).1 _ _ _
      (Parser.parse_eq_ok.mp h) rfl fun t ht => ?_
    have ht := (List.takeWhile_sublist _).subset ht
    exact ⟨scan_regular src t ht, hfor t ht⟩
  · have hread := Stmt.allRead maxNesting ss hw hn
    rw [Parser.parse_eq_ok]
    have hstop : rest.takeWhile (!·.isEof) = [] := by
      cases rest with
      | nil => rfl
      | cons t ts => simp [hrest t rfl]
    rwa [List.takeWhile_append_of_pos (by simpa using not_isEof_of_read hread), hstop,
      List.append_nil]

/-- The assignment `a = -b;` goes both ways. -/
theorem Parser.round_trip_assignment :
    let a : Token := ⟨.identifier, "a", 1, 0, 0, .nil⟩
    let minus : Token := ⟨.minus, "-", 1, 4, 2, .nil⟩
    let b : Token := ⟨.identifier, "b", 1, 5, 3, .nil⟩
    let ss := [Stmt.expression (.assign a (.unary minus (.variable b)))]
    (Parser.ofTokens (scan "a = -b;").1).parse.1 = .ok ss ∧
      AllAlike (Stmt.allTokens ss) ((scan "a = -b;").1.takeWhile (!·.isEof)) ∧
      (Parser.ofTokens (Stmt.allTokens ss ++ [])).parse.1 = .ok ss := by
  intro a minus b ss
  have hscan : (scan "a = -b;").1 = [a, ⟨.equal, "=", 1, 2, 1, .nil⟩, minus, b,
      ⟨.semicolon, ";", 1, 6, 4, .nil⟩, ⟨.eof, "", 1, 7, 5, .nil⟩] := by cbv
  have hparse : (Parser.ofTokens (scan "a = -b;").1).parse.1 = .ok ss := by
    rw [hscan]
    rfl
  have hfor : ∀ t ∈ (scan "a = -b;").1, t.kind ≠ .kwFor := by
    rw [hscan]
    simp [a, minus, b]
  exact ⟨hparse, Parser.round_trip.1 _ ss hfor hparse,
    Parser.round_trip.2 ss [] rfl (by decide) (by simp)⟩

end Lox
