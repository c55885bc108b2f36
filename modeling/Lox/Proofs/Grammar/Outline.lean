import Lox.Proofs.Grammar.Lockstep
import Lox.Proofs.Grammar.Resume

/-!
Outlines. An outline is a tree, or some errors, with places of a list of tokens where the tokens
would be. The kinds of tokens alone decide on the outline of what a parser gives: tokens of these
kinds give what becomes of the outline when each of them is put where its place stands.

Two lists of the same kinds are parsed in lockstep, so what they give is one outline, filled twice.
With blank tokens in one of the lists the outline can be told from what they give, and that does not
depend on the other list.
-/

namespace Lox

/-! ### Outlines -/

/-- An expression with places where its tokens would be. A number and a string are known by their
places too, but `nil`, `true` and `false` are the same wherever they come from. -/
inductive Expr.Outline where
  | nil
  | bool (b : Bool)
  | word (place : Nat)
  | variable (name : Nat)
  | assign (name : Nat) (value : Outline)
  | unary (op : Nat) (operand : Outline)
  | binary (left : Outline) (op : Nat) (right : Outline)
  | logical (left : Outline) (op : Nat) (right : Outline)
  | grouping (inner : Outline)
  | call (callee : Outline) (paren : Nat) (args : List Outline)

/-- A statement with places where its tokens would be. -/
inductive Stmt.Outline where
  | expression (e : Expr.Outline)
  | print (keyword : Nat) (e : Expr.Outline)
  | var (name : Nat) (init : Option Expr.Outline)
  | function (name : Nat) (params : List Nat) (body : List Outline)
  | block (body : List Outline)
  | branch (cond : Expr.Outline) (yes : Outline) (no : Option Outline)
  | loop (cond : Expr.Outline) (body : Outline)
  | ret (keyword : Nat) (value : Option Expr.Outline)

/-- A flaw and the place of the token at which it shows. -/
structure GrammarError.Outline where
  flaw : Flaw
  place : Nat

/-- What a call of a parser gives, with places where the tokens would be. -/
inductive Parser.Outline where
  | program (ss : List Stmt.Outline)
  | errors (es : List GrammarError.Outline)

section
variable (g : Nat → Token)

mutual

/-- The expression that has the token `g k` where the outline has the place `k`, and the value of
that token where a number or a string is. -/
def Expr.Outline.fill : Expr.Outline → Expr
  | .nil => .literal .nil
  | .bool b => .literal (.bool b)
  | .word k => .literal (g k).value
  | .variable x => .variable (g x)
  | .assign x e => .assign (g x) e.fill
  | .unary op e => .unary (g op) e.fill
  | .binary l op r => .binary l.fill (g op) r.fill
  | .logical l op r => .logical l.fill (g op) r.fill
  | .grouping e => .grouping e.fill
  | .call f paren args => .call f.fill (g paren) (Expr.Outline.fillAll args)

def Expr.Outline.fillAll : List Expr.Outline → List Expr
  | [] => []
  | e :: es => e.fill :: Expr.Outline.fillAll es

end

mutual

/-- The statement that has the token `g k` where the outline has the place `k`. -/
def Stmt.Outline.fill : Stmt.Outline → Stmt
  | .expression e => .expression (e.fill g)
  | .print k e => .print (g k) (e.fill g)
  | .var x e => .var (g x) (e.map (·.fill g))
  | .function x ps body => .function (g x) (ps.map g) (Stmt.Outline.fillAll body)
  | .block body => .block (Stmt.Outline.fillAll body)
  | .branch c yes none => .branch (c.fill g) yes.fill none
  | .branch c yes (some no) => .branch (c.fill g) yes.fill (some no.fill)
  | .loop c body => .loop (c.fill g) body.fill
  | .ret k e => .ret (g k) (e.map (·.fill g))

def Stmt.Outline.fillAll : List Stmt.Outline → List Stmt
  | [] => []
  | s :: ss => s.fill :: Stmt.Outline.fillAll ss

end

/-- The same flaw at the token `g k`, where `k` is its place. -/
def GrammarError.Outline.fill (e : GrammarError.Outline) : GrammarError := ⟨e.flaw, g e.place⟩

/-- The answer that has the token `g k` where the outline has the place `k`. -/
def Parser.Outline.fill : Parser.Outline → Except (List GrammarError) (List Stmt)
  | .program ss => .ok (Stmt.Outline.fillAll g ss)
  | .errors es => .error (es.map (·.fill g))

end

/-! ### Answers side by side -/

namespace Likeness.LikeParser

variable {L : Likeness} {p p' : Parser}

/-- However often they are called, they stay alike. -/
theorem after (h : L.LikeParser p p') (n : Nat) : L.LikeParser (p.after n) (p'.after n) := by
  induction n with
  | zero => exact h
  | succ n ih => exact ih.parse.2

theorem answer (h : L.LikeParser p p') (n : Nat) : L.LikeAnswer (p.answer n) (p'.answer n) :=
  (h.after n).parse.1

end Likeness.LikeParser

/-! ### Two fillings of one outline -/

/-- What `h` and `h'` make of one and the same thing. -/
def OfOne {α β γ : Type} (h : α → β) (h' : α → γ) (b : β) (c : γ) : Prop := ∃ a, h a = b ∧ h' a = c

namespace OfOne

variable {α β γ : Type} {h : α → β} {h' : α → γ}

theorem list {bs : List β} {cs : List γ} (hall : List.Forall₂ (OfOne h h') bs cs) :
    OfOne (List.map h) (List.map h') bs cs := by
  induction hall with
  | nil => exact ⟨[], rfl, rfl⟩
  | cons hbc _ ih =>
    obtain ⟨a, rfl, rfl⟩ := hbc
    obtain ⟨as, rfl, rfl⟩ := ih
    exact ⟨a :: as, rfl, rfl⟩

theorem option {b : Option β} {c : Option γ} (hbc : Option.Rel (OfOne h h') b c) :
    OfOne (Option.map h) (Option.map h') b c := by
  cases hbc with
  | none => exact ⟨none, rfl, rfl⟩
  | some hbc =>
    obtain ⟨a, rfl, rfl⟩ := hbc
    exact ⟨some a, rfl, rfl⟩

end OfOne

theorem Expr.Outline.fillAll_eq (g : Nat → Token) : fillAll g = List.map (fill g) := by
  funext es
  induction es with
  | nil => rfl
  | cons e es ih => rw [fillAll, ih, List.map_cons]

theorem Stmt.Outline.fillAll_eq (g : Nat → Token) : fillAll g = List.map (fill g) := by
  funext ss
  induction ss with
  | nil => rfl
  | cons s ss ih => rw [fillAll, ih, List.map_cons]

section
variable {g g' : Nat → Token} (hkind : ∀ k, (g k).kind = (g' k).kind)

/-- Tokens at one place, and trees with one outline. -/
def Likeness.ofPlaces : Likeness where
  LikeToken := OfOne g g'
  LikeExpr := OfOne (Expr.Outline.fill g) (Expr.Outline.fill g')
  LikeStmt := OfOne (Stmt.Outline.fill g) (Stmt.Outline.fill g')
  kind := by
    rintro _ _ ⟨k, rfl, rfl⟩
    exact hkind k
  literal := by
    rintro _ _ v v' ⟨k, rfl, rfl⟩ hv hv'
    rw [Token.literal?] at hv hv'
    rw [← hkind] at hv'
    -- only literals have a value, and that of a keyword is in its kind
    cases hk : (g k).kind <;> rw [hk] at hv hv' <;> cases hv <;> cases hv'
    case kwTrue => refine ⟨.bool true, ?_, ?_⟩ <;> rw [Expr.Outline.fill]
    case kwFalse => refine ⟨.bool false, ?_, ?_⟩ <;> rw [Expr.Outline.fill]
    case kwNil => refine ⟨.nil, ?_, ?_⟩ <;> rw [Expr.Outline.fill]
    case number | string => refine ⟨.word k, ?_, ?_⟩ <;> rw [Expr.Outline.fill]
  always := by refine ⟨.bool true, ?_, ?_⟩ <;> rw [Expr.Outline.fill]
  «variable» := by
    rintro _ _ ⟨x, rfl, rfl⟩
    refine ⟨.variable x, ?_, ?_⟩ <;> rw [Expr.Outline.fill]
  target := by
    rintro _ _ ⟨a, rfl, rfl⟩
    cases a with
    | «variable» x =>
      refine .inl ⟨g x, g' x, ?_, ?_, x, rfl, rfl⟩ <;> rw [Expr.Outline.fill]
    | _ => simp [Expr.Outline.fill]
  assign := by
    rintro _ _ _ _ ⟨x, rfl, rfl⟩ ⟨e, rfl, rfl⟩
    refine ⟨.assign x e, ?_, ?_⟩ <;> rw [Expr.Outline.fill]
  unary := by
    rintro _ _ _ _ ⟨op, rfl, rfl⟩ ⟨e, rfl, rfl⟩
    refine ⟨.unary op e, ?_, ?_⟩ <;> rw [Expr.Outline.fill]
  binary := by
    rintro _ _ _ _ _ _ ⟨l, rfl, rfl⟩ ⟨op, rfl, rfl⟩ ⟨r, rfl, rfl⟩
    refine ⟨.binary l op r, ?_, ?_⟩ <;> rw [Expr.Outline.fill]
  logical := by
    rintro _ _ _ _ _ _ ⟨l, rfl, rfl⟩ ⟨op, rfl, rfl⟩ ⟨r, rfl, rfl⟩
    refine ⟨.logical l op r, ?_, ?_⟩ <;> rw [Expr.Outline.fill]
  grouping := by
    rintro _ _ ⟨e, rfl, rfl⟩
    refine ⟨.grouping e, ?_, ?_⟩ <;> rw [Expr.Outline.fill]
  call := by
    rintro _ _ _ _ _ _ ⟨f, rfl, rfl⟩ ⟨paren, rfl, rfl⟩ hargs
    obtain ⟨args, rfl, rfl⟩ := OfOne.list hargs
    refine ⟨.call f paren args, ?_, ?_⟩ <;> rw [Expr.Outline.fill, Expr.Outline.fillAll_eq]
  expression := by
    rintro _ _ ⟨e, rfl, rfl⟩
    refine ⟨.expression e, ?_, ?_⟩ <;> rw [Stmt.Outline.fill]
  print := by
    rintro _ _ _ _ ⟨k, rfl, rfl⟩ ⟨e, rfl, rfl⟩
    refine ⟨.print k e, ?_, ?_⟩ <;> rw [Stmt.Outline.fill]
  var := by
    rintro _ _ _ _ ⟨x, rfl, rfl⟩ he
    obtain ⟨e, rfl, rfl⟩ := OfOne.option he
    refine ⟨.var x e, ?_, ?_⟩ <;> rw [Stmt.Outline.fill]
  function := by
    rintro _ _ _ _ _ _ ⟨x, rfl, rfl⟩ hps hbody
    obtain ⟨ps, rfl, rfl⟩ := OfOne.list hps
    obtain ⟨body, rfl, rfl⟩ := OfOne.list hbody
    refine ⟨.function x ps body, ?_, ?_⟩ <;> rw [Stmt.Outline.fill, Stmt.Outline.fillAll_eq]
  block := by
    rintro _ _ hbody
    obtain ⟨body, rfl, rfl⟩ := OfOne.list hbody
    refine ⟨.block body, ?_, ?_⟩ <;> rw [Stmt.Outline.fill, Stmt.Outline.fillAll_eq]
  branch := by
    rintro _ _ _ _ _ _ ⟨c, rfl, rfl⟩ ⟨yes, rfl, rfl⟩ hno
    cases hno with
    | none => refine ⟨.branch c yes none, ?_, ?_⟩ <;> rw [Stmt.Outline.fill]
    | some hno =>
      obtain ⟨no, rfl, rfl⟩ := hno
      refine ⟨.branch c yes (some no), ?_, ?_⟩ <;> rw [Stmt.Outline.fill]
  loop := by
    rintro _ _ _ _ ⟨c, rfl, rfl⟩ ⟨body, rfl, rfl⟩
    refine ⟨.loop c body, ?_, ?_⟩ <;> rw [Stmt.Outline.fill]
  ret := by
    rintro _ _ _ _ ⟨k, rfl, rfl⟩ he
    obtain ⟨e, rfl, rfl⟩ := OfOne.option he
    refine ⟨.ret k e, ?_, ?_⟩ <;> rw [Stmt.Outline.fill]

theorem Likeness.LikeAnswer.ofOne {a a' : Except (List GrammarError) (List Stmt)}
    (h : (ofPlaces hkind).LikeAnswer a a') :
    OfOne (Parser.Outline.fill g) (Parser.Outline.fill g') a a' := by
  cases h with
  | ok hss =>
    obtain ⟨ss, rfl, rfl⟩ := OfOne.list hss
    refine ⟨.program ss, ?_, ?_⟩ <;> rw [Parser.Outline.fill, Stmt.Outline.fillAll_eq]
  | @error es es' hes =>
    have herrors : List.Forall₂
        (OfOne (GrammarError.Outline.fill g) (GrammarError.Outline.fill g')) es es' := by
      refine hes.imp fun e e' he => ?_
      obtain ⟨flaw, t⟩ := e
      obtain ⟨flaw', t'⟩ := e'
      obtain ⟨rfl, k, rfl, rfl⟩ := he
      exact ⟨⟨flaw, k⟩, rfl, rfl⟩
    obtain ⟨es, rfl, rfl⟩ := OfOne.list herrors
    exact ⟨.errors es, rfl, rfl⟩

include hkind in
/-- Where tokens of the same kinds stand at all places of two lists, what is parsed from the one
list and from the other has one outline. -/
theorem Parser.answer_ofOne {size : Nat} (hend : ∃ k < size, (g k).isEof = true) (n : Nat) :
    OfOne (Outline.fill g) (Outline.fill g') ((ofTokens ((List.range size).map g)).answer n)
      ((ofTokens ((List.range size).map g')).answer n) := by
  have hts : List.Forall₂ (OfOne g g') ((List.range size).map g) ((List.range size).map g') := by
    rw [List.forall₂_map_left_iff, List.forall₂_map_right_iff, List.forall₂_same]
    exact fun k _ => ⟨k, rfl, rfl⟩
  have hlike : (Likeness.ofPlaces hkind).LikeParser _ _ := .ofTokens hts (by simpa using hend)
  exact (hlike.answer n).ofOne

end

/-! ### Blank tokens -/

/-- A token that knows no more than its kind and its place. Its value tells the place too. -/
def Token.blank (kind : Nat → Kind) (k : Nat) : Token :=
  ⟨kind k, "", 0, 0, k, .str (String.ofList (List.replicate k ' '))⟩

mutual

/-- The outline of an expression over blank tokens. -/
def Expr.outline : Expr → Expr.Outline
  | .literal (.bool b) => .bool b
  | .literal (.str s) => .word s.length
  | .literal _ => .nil
  | .variable x => .variable x.idx
  | .assign x e => .assign x.idx e.outline
  | .unary op e => .unary op.idx e.outline
  | .binary l op r => .binary l.outline op.idx r.outline
  | .logical l op r => .logical l.outline op.idx r.outline
  | .grouping e => .grouping e.outline
  | .call f paren args => .call f.outline paren.idx (Expr.allOutlines args)

def Expr.allOutlines : List Expr → List Expr.Outline
  | [] => []
  | e :: es => e.outline :: Expr.allOutlines es

end

mutual

/-- The outline of a statement over blank tokens. -/
def Stmt.outline : Stmt → Stmt.Outline
  | .expression e => .expression e.outline
  | .print k e => .print k.idx e.outline
  | .var x e => .var x.idx (e.map Expr.outline)
  | .function x ps body => .function x.idx (ps.map Token.idx) (Stmt.allOutlines body)
  | .block body => .block (Stmt.allOutlines body)
  | .branch c yes none => .branch c.outline yes.outline none
  | .branch c yes (some no) => .branch c.outline yes.outline (some no.outline)
  | .loop c body => .loop c.outline body.outline
  | .ret k e => .ret k.idx (e.map Expr.outline)

def Stmt.allOutlines : List Stmt → List Stmt.Outline
  | [] => []
  | s :: ss => s.outline :: Stmt.allOutlines ss

end

/-- The outline of what is parsed from blank tokens. -/
def Parser.outline : Except (List GrammarError) (List Stmt) → Parser.Outline
  | .ok ss => .program (Stmt.allOutlines ss)
  | .error es => .errors (es.map fun e => ⟨e.flaw, e.token.idx⟩)

section
variable (kind : Nat → Kind) (k : Nat)

@[simp] theorem Token.blank_kind : (blank kind k).kind = kind k := rfl

@[simp] theorem Token.blank_idx : (blank kind k).idx = k := rfl

mutual

/-- Blank tokens tell of each part of a tree where it stands in the outline. -/
theorem Expr.outline_fill : ∀ a : Outline, (a.fill (Token.blank kind)).outline = a
  | .nil | .bool _ => rfl
  | .word k => by simp [Outline.fill, outline, Token.blank]
  | .variable x => by simp [Outline.fill, outline]
  | .assign x e => by simp [Outline.fill, outline, outline_fill e]
  | .unary op e => by simp [Outline.fill, outline, outline_fill e]
  | .binary l op r => by simp [Outline.fill, outline, outline_fill l, outline_fill r]
  | .logical l op r => by simp [Outline.fill, outline, outline_fill l, outline_fill r]
  | .grouping e => by simp [Outline.fill, outline, outline_fill e]
  | .call f paren args => by simp [Outline.fill, outline, outline_fill f, allOutlines_fill args]

theorem Expr.allOutlines_fill :
    ∀ as : List Outline, allOutlines (Outline.fillAll (Token.blank kind) as) = as
  | [] => rfl
  | a :: as => by rw [Outline.fillAll, allOutlines, outline_fill a, allOutlines_fill as]

end

theorem Expr.map_outline_fill (a : Option Outline) :
    (a.map (·.fill (Token.blank kind))).map outline = a := by
  cases a with
  | none => rfl
  | some a => rw [Option.map_some, Option.map_some, outline_fill]

theorem Token.map_idx_blank (ks : List Nat) : (ks.map (blank kind)).map Token.idx = ks := by
  rw [List.map_map]
  exact List.map_id ks

mutual

theorem Stmt.outline_fill : ∀ a : Outline, (a.fill (Token.blank kind)).outline = a
  | .expression e => by simp [Outline.fill, outline, Expr.outline_fill]
  | .print k e => by simp [Outline.fill, outline, Expr.outline_fill]
  | .var x e | .ret x e => by rw [Outline.fill, outline, Expr.map_outline_fill, Token.blank_idx]
  | .function x ps body => by
    rw [Outline.fill, outline, allOutlines_fill body, Token.map_idx_blank, Token.blank_idx]
  | .block body => by rw [Outline.fill, outline, allOutlines_fill body]
  | .branch c yes none => by simp [Outline.fill, outline, Expr.outline_fill, outline_fill yes]
  | .branch c yes (some no) => by
    simp [Outline.fill, outline, Expr.outline_fill, outline_fill yes, outline_fill no]
  | .loop c body => by simp [Outline.fill, outline, Expr.outline_fill, outline_fill body]

theorem Stmt.allOutlines_fill :
    ∀ as : List Outline, allOutlines (Outline.fillAll (Token.blank kind) as) = as
  | [] => rfl
  | a :: as => by rw [Outline.fillAll, allOutlines, outline_fill a, allOutlines_fill as]

end

theorem Parser.outline_fill (a : Outline) : outline (a.fill (Token.blank kind)) = a := by
  cases a with
  | program ss => rw [Outline.fill, outline, Stmt.allOutlines_fill]
  | errors es => simp [Outline.fill, outline, GrammarError.Outline.fill, Function.comp_def]

end

/-! ### Parsing by kinds -/

namespace Parser

/-- The kinds at the places of a list decide on the outline of each answer, and there is one outline
alone that fits all tokens of these kinds. -/
theorem existsUnique_outline {kind : Nat → Kind} {size : Nat} (hend : ∃ k < size, kind k = .eof)
    (n : Nat) :
    ∃! a : Outline, ∀ g : Nat → Token, (∀ k, (g k).kind = kind k) →
      (ofTokens ((List.range size).map g)).answer n = a.fill g := by
  have hend : ∃ k < size, (Token.blank kind k).isEof = true := by
    simpa only [Token.isEof, Token.blank_kind, beq_iff_eq] using hend
  -- what is parsed from blank tokens tells which outline it is
  let blank := (ofTokens ((List.range size).map (Token.blank kind))).answer n
  have known {a : Outline} (h : blank = a.fill (Token.blank kind)) : outline blank = a := by
    rw [h, outline_fill]
  refine ⟨outline blank, fun g hg => ?_, fun a ha => ?_⟩
  · obtain ⟨a, hblank, ha⟩ := answer_ofOne (fun k => (hg k).symm) hend n
    rw [known hblank.symm, ha]
  · exact (known (ha (Token.blank kind) fun _ => rfl)).symm

theorem eq_map_tokenAt (ts : List Token) : ts = (List.range ts.length).map (tokenAt ts) := by
  refine List.ext_getElem (by simp) fun k hk _ => ?_
  simp [tokenAt, hk]

/-- The parser looks only at the kinds of tokens. Each call has one outline, and its answer is the
outline filled in with the tokens at their places: a tree, or errors in their order, each with its
flaw and so with its message. When all tokens are changed but keep their kinds, the answer is the
same outline filled in with what becomes of these tokens. The outline is the only one for which that
is so whatever tokens of the same kinds are at the places. -/
theorem depends_on_kinds (ts : List Token) (e : Token) (he : e.isEof = true) (n : Nat) :
    let all := ts ++ [e]
    ∃! a : Outline, (ofTokens all).answer n = a.fill (tokenAt all) ∧
      (∀ f : Token → Token, (∀ t, (f t).kind = t.kind) →
        (ofTokens (all.map f)).answer n = a.fill fun k => f (tokenAt all k)) ∧
      ∀ g : Nat → Token, (∀ k, (g k).kind = (tokenAt all k).kind) →
        (ofTokens ((List.range all.length).map g)).answer n = a.fill g := by
  intro all
  have hlast : ∃ k < all.length, (tokenAt all k).kind = .eof :=
    ⟨ts.length, by simp [all], by simpa [all, tokenAt, Token.isEof] using he⟩
  obtain ⟨a, ha, hunique⟩ := existsUnique_outline hlast n
  refine ⟨a, ⟨?_, fun f hf => ?_, ha⟩, fun a' ha' => hunique a' ha'.2.2⟩
  · have hanswer := ha (tokenAt all) fun _ => rfl
    rwa [← eq_map_tokenAt] at hanswer
  · have hanswer := ha (f ∘ tokenAt all) fun k => hf (tokenAt all k)
    rwa [← List.map_map, ← eq_map_tokenAt] at hanswer

/-- The first call stops at the semicolon, and the second one reads an assignment. In other tokens
of the same kinds both find the same. -/
theorem depends_on_kinds_assignment :
    let semi : Token := ⟨.semicolon, ";", 1, 0, 0, .nil⟩
    let x : Token := ⟨.identifier, "x", 1, 2, 1, .nil⟩
    let word : Token := ⟨.string, "\"a\"", 1, 6, 3, .str "a"⟩
    let e : Token := ⟨.eof, "", 1, 10, 5, .nil⟩
    let ts : List Token := [semi, x, ⟨.equal, "=", 1, 4, 2, .nil⟩, word, semi]
    let all := ts ++ [e]
    let f : Token → Token := fun t => ⟨t.kind, "y", 7, t.line, 8, .bool true⟩
    e.isEof = true ∧ (∀ t, (f t).kind = t.kind) ∧
    (ofTokens all).answer 0 = .error [⟨.noExpression, semi⟩] ∧
    (ofTokens (all.map f)).answer 0 = .error [⟨.noExpression, f semi⟩] ∧
    (ofTokens all).answer 1 = .ok [.expression (.assign x (.literal (.str "a")))] ∧
    (ofTokens (all.map f)).answer 1 = .ok [.expression (.assign (f x) (.literal (.bool true)))] ∧
    ∃ a : Outline, (ofTokens all).answer 1 = a.fill (tokenAt all) ∧
      (ofTokens (all.map f)).answer 1 = a.fill fun k => f (tokenAt all k) := by
  intro semi x word e ts all f
  obtain ⟨a, ⟨h, hf, -⟩, -⟩ := depends_on_kinds ts e rfl 1
  exact ⟨rfl, fun _ => rfl, rfl, rfl, rfl, rfl, a, h, hf f fun _ => rfl⟩

end Parser
end Lox
